import QuinKernel.Machine.Paging
import QuinKernel.Pmm.Model

/-!
# The virtual memory manager (`vmm.c`)

The page tables live in physical memory, so `Vmm` is the frame allocator's
state (which holds the memory), CR3, and the file's statics. As in the frame
allocator the HHDM alias of a physical address is taken to reach that address:
a table pointer is the table's physical address, and a pointer a function may
return as `NULL` is an `Option`. `invlpg` has no counterpart, since the model
reads translations from the tables and not from a TLB.
-/

namespace QuinKernel

open Machine

def ptePresent : Word := 1
def pteWritable : Word := 2
def pteUser : Word := 4
def pteCacheDisable : Word := 0x10
def pteNoExecute : Word := 0x8000000000000000
def pteAddrMask : Word := 0x000ffffffffff000

def vmmWritable : BitVec 32 := 1
def vmmUser : BitVec 32 := 2
def vmmNoCache : BitVec 32 := 4
def vmmNoExecute : BitVec 32 := 8

/-- `VMM_DYNAMIC_VBASE` and `VMM_MMIO_VBASE`. -/
def vmmDynamicVbase : Word := 0xffffffffb0000000
def vmmMmioVbase : Word := 0xffffffffc0000000

/-- `struct lazy_region`. -/
structure LazyRegion where
  start : Word
  end_ : Word
  flags : BitVec 32
  used : Bool
  deriving DecidableEq

/-- Physical memory, CR3 and the statics of `vmm.c`. `lazyRegions` is the
fixed table of `MAX_LAZY_REGIONS` slots. -/
structure Vmm where
  pmm : Pmm
  cr3 : Word
  dynamicNextVaddr : Word
  mmioNextVaddr : Word
  lazyRegions : List LazyRegion

/-- The empty table of lazy regions. -/
def noLazyRegions : List LazyRegion := List.replicate 8 ⟨0, 0, 0, false⟩

/-- Replace the memory the frame allocator works on. -/
def Pmm.withMem (p : Pmm) (m : Mem) : Pmm := { p with mem := m }

/-- Replace the frame allocator's state. -/
def Vmm.withPmm (v : Vmm) (p : Pmm) : Vmm := { v with pmm := p }

/-- `table[index]`. -/
def Vmm.entry (v : Vmm) (table : Word) (index : Fin 512) : Word :=
  tableEntry v.pmm.mem table.toNat index

/-- `table[index] = entry`. -/
def Vmm.setEntry (v : Vmm) (table : Word) (index : Fin 512) (entry : Word) : Vmm :=
  v.withPmm (v.pmm.withMem (store64 v.pmm.mem (table.toNat + 8 * index) entry))

/-- `current_pml4`. -/
def Vmm.currentPml4 (v : Vmm) : Word := v.cr3 &&& pteAddrMask

/-- `translate_flags`. -/
def translateFlags (flags : BitVec 32) : Word :=
  let pteFlags := ptePresent
  let pteFlags := if flags &&& vmmWritable ≠ 0 then pteFlags ||| pteWritable else pteFlags
  let pteFlags := if flags &&& vmmUser ≠ 0 then pteFlags ||| pteUser else pteFlags
  let pteFlags := if flags &&& vmmNoCache ≠ 0 then pteFlags ||| pteCacheDisable else pteFlags
  if flags &&& vmmNoExecute ≠ 0 then pteFlags ||| pteNoExecute else pteFlags

/-- One of the four indices of `page_table_indices`. -/
def tableIndex (virt : Word) (shift : Nat) : Fin 512 :=
  ⟨((virt >>> shift) &&& 511).toNat, by
    rw [BitVec.toNat_and]
    exact Nat.lt_of_le_of_lt Nat.and_le_right (by decide)⟩

/-- `page_table_indices`. -/
def pageTableIndices (virt : Word) : Fin 512 × Fin 512 × Fin 512 × Fin 512 :=
  (tableIndex virt 39, tableIndex virt 30, tableIndex virt 21, tableIndex virt 12)

/-- `ensure_next_level`. -/
def ensureNextLevel (v : Vmm) (table : Word) (index : Fin 512) : Option Word × Vmm :=
  if v.entry table index &&& ptePresent = 0 then
    let (newTablePhys, pmm) := pmmAllocFrame v.pmm
    let v := v.withPmm pmm
    if newTablePhys = 0 then (none, v)
    else
      let v := v.setEntry table index (newTablePhys ||| ptePresent ||| pteWritable ||| pteUser)
      (some (v.entry table index &&& pteAddrMask), v)
  else (some (v.entry table index &&& pteAddrMask), v)

/-- `vmm_map`. -/
def vmmMap (v : Vmm) (virt phys : Word) (flags : BitVec 32) : Bool × Vmm :=
  let (pml4I, pdptI, pdI, ptI) := pageTableIndices virt
  match ensureNextLevel v v.currentPml4 pml4I with
  | (none, v) => (false, v)
  | (some pdpt, v) =>
      match ensureNextLevel v pdpt pdptI with
      | (none, v) => (false, v)
      | (some pd, v) =>
          match ensureNextLevel v pd pdI with
          | (none, v) => (false, v)
          | (some pt, v) =>
              (true, v.setEntry pt ptI ((phys &&& pteAddrMask) ||| translateFlags flags))

/-- `vmm_unmap`. -/
def vmmUnmap (v : Vmm) (virt : Word) : Vmm :=
  let (pml4I, pdptI, pdI, ptI) := pageTableIndices virt
  let pml4e := v.entry v.currentPml4 pml4I
  if pml4e &&& ptePresent = 0 then v
  else
    let pdpte := v.entry (pml4e &&& pteAddrMask) pdptI
    if pdpte &&& ptePresent = 0 then v
    else
      let pde := v.entry (pdpte &&& pteAddrMask) pdI
      if pde &&& ptePresent = 0 then v
      else v.setEntry (pde &&& pteAddrMask) ptI 0

/-! ## Lazy regions -/

/-- The loop of `vmm_register_lazy_region`: the first unused slot is taken. -/
def takeSlot (region : LazyRegion) : List LazyRegion → Option (List LazyRegion)
  | [] => none
  | slot :: rest =>
      if !slot.used then some (region :: rest) else (takeSlot region rest).map (slot :: ·)

/-- `vmm_register_lazy_region`. -/
def vmmRegisterLazyRegion (v : Vmm) (start end_ : Word) (flags : BitVec 32) : Bool × Vmm :=
  match takeSlot ⟨start, end_, flags, true⟩ v.lazyRegions with
  | none => (false, v)
  | some regions => (true, { v with lazyRegions := regions })

/-- The test of the loop in `vmm_handle_page_fault`. -/
def LazyRegion.covers (region : LazyRegion) (page : Word) : Bool :=
  region.used && decide (region.start ≤ page) && decide (page < region.end_)

/-- `vmm_handle_page_fault`. -/
def vmmHandlePageFault (v : Vmm) (faultAddr errorCode : Word) : Bool × Vmm :=
  if errorCode &&& 1 ≠ 0 then (false, v)
  else
    let page := alignDown faultAddr pageSize
    match v.lazyRegions.find? (·.covers page) with
    | none => (false, v)
    | some region =>
        let (frame, pmm) := pmmAllocFrame v.pmm
        let v := v.withPmm pmm
        if frame = 0 then (false, v) else vmmMap v page frame region.flags

/-! ## Bump allocation of virtual addresses -/

/-- The loop of `vmm_alloc_guarded`, `n` pages to go, `i` done. -/
def mapGuardedPages (regionStart : Word) (flags : BitVec 32) :
    Nat → Word → Vmm → Except Panic (Bool × Vmm)
  | 0, _, v => .ok (true, v)
  | n + 1, i, v =>
      let (frame, pmm) := pmmAllocFrame v.pmm
      let v := v.withPmm pmm
      if frame = 0 then .ok (false, v)
      else
        match vmmMap v (regionStart + i * pageSize) frame flags with
        | (true, v) => mapGuardedPages regionStart flags n (i + 1) v
        | (false, v) =>
            match pmmFreeFrame v.pmm frame with
            | .error e => .error e
            | .ok pmm => .ok (false, v.withPmm pmm)

/-- `vmm_alloc_guarded`: `none` is `NULL`. -/
def vmmAllocGuarded (v : Vmm) (pageCount : Word) (flags : BitVec 32) :
    Except Panic (Option Word × Vmm) :=
  let regionStart := v.dynamicNextVaddr + pageSize
  let regionEnd := regionStart + pageCount * pageSize
  let v := { v with dynamicNextVaddr := regionEnd + pageSize }
  match mapGuardedPages regionStart flags pageCount.toNat 0 v with
  | .error e => .error e
  | .ok (true, v) => .ok (some regionStart, v)
  | .ok (false, v) => .ok (none, v)

/-- `vmm_map_mmio`. -/
def vmmMapMmio (v : Vmm) (physAddr : Word) : Except Panic (Word × Vmm) :=
  let virt := v.mmioNextVaddr
  let v := { v with mmioNextVaddr := v.mmioNextVaddr + pageSize }
  match vmmMap v virt physAddr (vmmWritable ||| vmmNoCache ||| vmmNoExecute) with
  | (false, _) => .error ⟨"vmm_map_mmio: failed to map phys 0x%lx", [physAddr]⟩
  | (true, v) => .ok (virt, v)

end QuinKernel
