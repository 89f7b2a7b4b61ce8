import QuinKernel.Lib.String

/-!
# `kernel/acpi/acpi.c`

`acpi_init` and `acpi_find_table` on the memory the firmware left behind.
Pointers are machine words and may wrap; the root table's entry count and the
byte offset of an entry are 32-bit, as the source has them.
-/

namespace QuinKernel

open Machine

/-- What the bootloader answers: `boot_get_hhdm_offset` and `boot_get_rsdp`. -/
structure BootInfo where
  hhdmOffset : Word
  rsdp : Option Word

/-- The statics of `acpi.c`. -/
structure Acpi where
  hhdmOffset : Word
  rootTable : Word
  rootEntryCount : BitVec 32
  rootEntriesAre64bit : Bool
  deriving DecidableEq, Repr

/-- `phys_to_virt`. -/
def physToVirt (hhdmOffset phys : Word) : Word := phys + hhdmOffset

/-- The 32-bit field at `p`. -/
def load32At (m : Mem) (p : Word) : BitVec 32 := BitVec.ofNat 32 (loadNat (bytesAt m p) 0 4)

/-- The 64-bit field at `p`. -/
def load64At (m : Mem) (p : Word) : Word := load64 (bytesAt m p) 0

/-- `sum` after `n` iterations of the loop of `checksum_ok`. -/
def checksum (m : Mem) (data : Word) : Nat → Byte
  | 0 => 0
  | n + 1 => checksum m data n + bytesAt m data n

/-- `checksum_ok`. -/
def checksumOk (m : Mem) (data : Word) (length : BitVec 32) : Bool :=
  checksum m data length.toNat = 0

/-! ## Table headers and the RSDP -/

/-- `sizeof(struct acpi_table_header)`. -/
def acpiTableHeaderSize : Nat := 36

/-- `table->length`. -/
def tableLength (m : Mem) (table : Word) : BitVec 32 := load32At m (table + 4)

/-- `rsdp->revision`. -/
def rsdpRevision (m : Mem) (rsdp : Word) : Byte := m (rsdp + 15).toNat

/-- `rsdp->rsdt_address`. -/
def rsdpRsdtAddress (m : Mem) (rsdp : Word) : BitVec 32 := load32At m (rsdp + 16)

/-- `rsdp->xsdt_address`. -/
def rsdpXsdtAddress (m : Mem) (rsdp : Word) : Word := load64At m (rsdp + 24)

/-- `acpi_init` once it has chosen the root table: the checks and the statics
are those of either path, with its own names, stride and message. -/
def acceptRoot (m : Mem) (hhdmOffset root : Word) (name : String) (are64bit : Bool)
    (mismatch : String) : Except Panic Acpi :=
  if memcmp (bytesAt m root) (literal name) 4 ≠ 0 ∨ ¬ checksumOk m root (tableLength m root) then
    .error ⟨mismatch, []⟩
  else .ok {
    hhdmOffset := hhdmOffset
    rootTable := root
    rootEntryCount :=
      (tableLength m root - BitVec.ofNat 32 acpiTableHeaderSize) / (if are64bit then 8 else 4)
    rootEntriesAre64bit := are64bit }

/-- `acpi_init`. -/
def acpiInit (boot : BootInfo) (m : Mem) : Except Panic Acpi :=
  match boot.rsdp with
  | none => .error ⟨"acpi: bootloader did not answer the RSDP request", []⟩
  | some rsdp =>
      if memcmp (bytesAt m rsdp) (literal "RSD PTR ") 8 ≠ 0 then
        .error ⟨"acpi: RSDP signature mismatch", []⟩
      else if ¬ checksumOk m rsdp 20 then
        .error ⟨"acpi: RSDP (v1) checksum mismatch", []⟩
      else if rsdpRevision m rsdp ≥ 2 ∧ checksumOk m rsdp 36 then
        acceptRoot m boot.hhdmOffset (physToVirt boot.hhdmOffset (rsdpXsdtAddress m rsdp))
          "XSDT" true "acpi: XSDT signature or checksum mismatch"
      else
        acceptRoot m boot.hhdmOffset
          (physToVirt boot.hhdmOffset ((rsdpRsdtAddress m rsdp).setWidth 64))
          "RSDT" false "acpi: RSDT signature or checksum mismatch"

/-! ## The search -/

namespace Acpi

/-- The bytes of one entry. -/
def stride (a : Acpi) : Nat := if a.rootEntriesAre64bit then 8 else 4

/-- The address of entry `i`: `entries + i * 8` or `entries + i * 4`. -/
def entryAt (a : Acpi) (i : BitVec 32) : Word :=
  a.rootTable + BitVec.ofNat 64 acpiTableHeaderSize +
    (i * (if a.rootEntriesAre64bit then 8 else 4)).setWidth 64

/-- `table_phys` of entry `i`. -/
def tablePhys (a : Acpi) (m : Mem) (i : BitVec 32) : Word :=
  if a.rootEntriesAre64bit then load64At m (a.entryAt i)
  else (load32At m (a.entryAt i)).setWidth 64

/-- The loop of `acpi_find_table` from entry `i`, with `n` entries to go: the
entries it reads, and what it returns. -/
def search (a : Acpi) (m : Mem) (signature : Word) :
    BitVec 32 → Nat → List Word × Except Panic (Option Word)
  | _, 0 => ([], .ok none)
  | i, n + 1 =>
      let table := physToVirt a.hhdmOffset (a.tablePhys m i)
      if memcmp (bytesAt m table) (bytesAt m signature) 4 = 0 then
        if ¬ checksumOk m table (tableLength m table) then
          ([a.entryAt i], .error ⟨"acpi: %s table checksum mismatch", [signature]⟩)
        else ([a.entryAt i], .ok (some table))
      else
        let rest := a.search m signature (i + 1) n
        (a.entryAt i :: rest.1, rest.2)

/-- The entries `acpi_find_table` reads, by address. -/
def entriesRead (a : Acpi) (m : Mem) (signature : Word) : List Word :=
  (a.search m signature 0 a.rootEntryCount.toNat).1

end Acpi

/-- `acpi_find_table`. -/
def acpiFindTable (a : Acpi) (m : Mem) (signature : Word) : Except Panic (Option Word) :=
  (a.search m signature 0 a.rootEntryCount.toNat).2

end QuinKernel
