import QuinKernel.Lib.Bitmap
import QuinKernel.Lib.String

/-!
# The physical memory manager (`pmm.c`)

Memory is physical: the HHDM alias `phys_to_virt` gives of a physical address
is taken to reach exactly that address, so the model dereferences physical
addresses. The frame bitmap is a run of bytes in the same memory the allocator
hands out and zeroes.

`Pmm` is that memory together with the file's statics. The boot-time memory
map is `boot_get_memmap`'s answer, at most 256 entries of what the bootloader
reported.
-/

namespace QuinKernel

open Machine

/-- `PAGE_SIZE`. -/
def pageSize : Word := 4096

/-- `struct boot_memmap_entry`. -/
structure BootMemmapEntry where
  base : Word
  length : Word
  type : Word
  deriving DecidableEq, Repr

def bootMemmapUsable : Word := 0
def bootMemmapBootloaderReclaimable : Word := 5
def bootMemmapExecutableAndModules : Word := 6

/-- `boot_get_memmap`: `none` when the bootloader did not answer; otherwise
the first 256 entries, the size of the static buffer they are copied to. -/
def bootGetMemmap (response : Option (List BootMemmapEntry)) : Option (List BootMemmapEntry) :=
  response.map (·.take 256)

/-- Physical memory and the statics of `pmm.c`. -/
structure Pmm where
  mem : Mem
  bitmap : Word
  frameCount : Word
  nextSearchIndex : Word
  freeFrames : Word

/-! ## `pmm_init` -/

/-- One iteration of the loop that finds `highest_addr`. -/
def raiseHighest (highest : Word) (entry : BootMemmapEntry) : Word :=
  if entry.type ≠ bootMemmapUsable ∧ entry.type ≠ bootMemmapBootloaderReclaimable ∧
      entry.type ≠ bootMemmapExecutableAndModules then
    highest
  else
    let end_ := entry.base + entry.length
    if highest < end_ then end_ else highest

/-- The loop that picks `bitmap_phys`: the base of the first usable region
large enough for the bitmap, 0 if there is none. -/
def findBitmapPhys (bitmapBytes : Word) : List BootMemmapEntry → Word
  | [] => 0
  | entry :: rest =>
      if entry.type = bootMemmapUsable ∧ bitmapBytes ≤ entry.length then entry.base
      else findBitmapPhys bitmapBytes rest

/-- `for (frame = start; ...; frame++)` with `n` iterations to go. -/
def forFrames (body : Pmm → Word → Pmm) : Nat → Word → Pmm → Pmm
  | 0, _, p => p
  | n + 1, frame, p => forFrames body n (frame + 1) (body p frame)

/-- Body of the loop over a usable region's frames. -/
def markFree (p : Pmm) (frame : Word) : Pmm :=
  { p with mem := bitmapClear p.mem p.bitmap.toNat frame, freeFrames := p.freeFrames + 1 }

/-- Body of the loop over the bitmap's own frames, and the claim on frame 0. -/
def claimFrame (p : Pmm) (frame : Word) : Pmm :=
  if !bitmapTest p.mem p.bitmap.toNat frame then
    { p with mem := bitmapSet p.mem p.bitmap.toNat frame, freeFrames := p.freeFrames - 1 }
  else p

/-- Body of the loop over the memory map that frees the usable regions. -/
def freeRegion (p : Pmm) (entry : BootMemmapEntry) : Pmm :=
  if entry.type ≠ bootMemmapUsable then p
  else
    let startFrame := entry.base / pageSize
    let endFrame := (entry.base + entry.length) / pageSize
    forFrames markFree (endFrame.toNat - startFrame.toNat) startFrame p

/-- `pmm_init`, from the zero-initialised statics. -/
def pmmInit (response : Option (List BootMemmapEntry)) (m : Mem) : Except Panic Pmm :=
  match bootGetMemmap response with
  | none => .error ⟨"pmm: bootloader did not answer the memory map request", []⟩
  | some memmap =>
      let highestAddr := memmap.foldl raiseHighest 0
      let frameCount := highestAddr / pageSize
      let bitmapBytes := alignUp frameCount 8 / 8
      let bitmapPhys := findBitmapPhys bitmapBytes memmap
      if bitmapPhys = 0 then
        .error ⟨"pmm: no usable region large enough for the frame bitmap (%lu bytes)",
          [bitmapBytes]⟩
      else
        let p : Pmm :=
          { mem := memset m bitmapPhys.toNat 0xff bitmapBytes.toNat
            bitmap := bitmapPhys
            frameCount := frameCount
            nextSearchIndex := 0
            freeFrames := 0 }
        let p := memmap.foldl freeRegion p
        let bitmapStartFrame := bitmapPhys / pageSize
        let bitmapEndFrame := bitmapStartFrame + alignUp bitmapBytes pageSize / pageSize
        let p := forFrames claimFrame (bitmapEndFrame.toNat - bitmapStartFrame.toNat)
          bitmapStartFrame p
        .ok (claimFrame p 0)

/-! ## Allocation -/

/-- `pmm_alloc_frame`: the frame's physical address, 0 if none remain. -/
def pmmAllocFrame (p : Pmm) : Word × Pmm :=
  let frame := bitmapFindFirstClear p.mem p.bitmap.toNat p.frameCount p.nextSearchIndex
  if frame = p.frameCount then (0, p)
  else
    let phys := frame * pageSize
    (phys,
      { p with
        mem := memset (bitmapSet p.mem p.bitmap.toNat frame) phys.toNat 0 pageSize.toNat
        freeFrames := p.freeFrames - 1
        nextSearchIndex := frame + 1 })

/-- `pmm_free_frame`. -/
def pmmFreeFrame (p : Pmm) (physAddr : Word) : Except Panic Pmm :=
  let frame := physAddr / pageSize
  if p.frameCount ≤ frame ∨ !bitmapTest p.mem p.bitmap.toNat frame then
    .error ⟨"pmm_free_frame: double free or invalid address 0x%lx", [physAddr]⟩
  else
    .ok { p with mem := bitmapClear p.mem p.bitmap.toNat frame, freeFrames := p.freeFrames + 1 }

end QuinKernel
