import QuinKernel.Acpi.Model

/-!
# What `acpi_find_table` reads and finds

`acpi_init` computes the entry count from the root table's length by a 32-bit
subtraction. A length of at least the header's 36 bytes bounds every entry the
search reads by the table's end; a smaller one, which the checksum does not
exclude, wraps around and the search leaves the table with its first entry
(`acpi_reads_outside`).

What the search finds does not depend on which root table the machine has:
both paths return the first listed table with the signature (`firstListed`).
-/

namespace QuinKernel

open Machine

/-! ## The accepted root table -/

theorem acceptRoot_ok {m : Mem} {hhdmOffset root : Word} {name mismatch : String}
    {are64bit : Bool} {a : Acpi} (h : acceptRoot m hhdmOffset root name are64bit mismatch = .ok a) :
    a.hhdmOffset = hhdmOffset ∧ a.rootEntryCount =
      (tableLength m a.rootTable - BitVec.ofNat 32 acpiTableHeaderSize) /
        (if a.rootEntriesAre64bit then 8 else 4) := by
  unfold acceptRoot at h
  split at h
  · cases h
  · cases h
    exact ⟨rfl, rfl⟩

/-- The statics after `acpi_init`, on either path. -/
theorem acpiInit_ok {boot : BootInfo} {m : Mem} {a : Acpi} (h : acpiInit boot m = .ok a) :
    a.hhdmOffset = boot.hhdmOffset ∧ a.rootEntryCount =
      (tableLength m a.rootTable - BitVec.ofNat 32 acpiTableHeaderSize) /
        (if a.rootEntriesAre64bit then 8 else 4) := by
  unfold acpiInit at h
  split at h
  · cases h
  · split at h
    · cases h
    · split at h
      · cases h
      · split at h
        · exact acceptRoot_ok h
        · exact acceptRoot_ok h

/-- The entry count in plain numbers: the length is reduced by 36 modulo `2 ^ 32`. -/
theorem rootEntryCount_toNat {boot : BootInfo} {m : Mem} {a : Acpi}
    (h : acpiInit boot m = .ok a) : a.rootEntryCount.toNat =
      (2 ^ 32 - 36 + (tableLength m a.rootTable).toNat) % 2 ^ 32 / a.stride := by
  rw [(acpiInit_ok h).2]
  unfold Acpi.stride acpiTableHeaderSize
  split <;> rw [BitVec.toNat_udiv, BitVec.toNat_sub] <;> rfl

/-! ## The entries read -/

namespace Acpi

variable (a : Acpi) (m : Mem) (signature : Word)

theorem stride_pos : 0 < a.stride := by
  unfold stride
  split <;> decide

/-- Where entry `i` lies: the 32-bit product is the offset behind the header. -/
theorem entryAt_eq (i : BitVec 32) : a.entryAt i =
    a.rootTable + BitVec.ofNat 64 (acpiTableHeaderSize + i.toNat * a.stride % 2 ^ 32) := by
  have hproduct : (i * (if a.rootEntriesAre64bit then 8 else 4)).setWidth 64 =
      BitVec.ofNat 64 (i.toNat * a.stride % 2 ^ 32) := by
    apply BitVec.eq_of_toNat_eq
    unfold stride
    split <;> rw [BitVec.toNat_setWidth, BitVec.toNat_mul, BitVec.toNat_ofNat] <;> rfl
  unfold entryAt
  rw [hproduct, BitVec.ofNat_add, BitVec.add_assoc]

theorem entryAt_offset (i : BitVec 32) :
    (a.entryAt i - a.rootTable).toNat = acpiTableHeaderSize + i.toNat * a.stride % 2 ^ 32 := by
  unfold acpiTableHeaderSize
  rw [entryAt_eq, add_sub_cancel_left]
  apply toNat_ofNat_of_lt
  unfold acpiTableHeaderSize
  omega

/-- The search reads entries in order, from the first one on. -/
theorem mem_search {r : Word} : ∀ {n : Nat} {i : BitVec 32}, r ∈ (a.search m signature i n).1 →
    i.toNat + n ≤ 2 ^ 32 → ∃ j : BitVec 32, j.toNat < i.toNat + n ∧ r = a.entryAt j := by
  intro n
  induction n with
  | zero =>
      intro i hr
      cases hr
  | succ n ih =>
      intro i hr hn
      have hfirst : ∃ j : BitVec 32, j.toNat < i.toNat + (n + 1) ∧ a.entryAt i = a.entryAt j :=
        ⟨i, by omega, rfl⟩
      unfold search at hr
      dsimp only at hr
      split at hr
      · split at hr <;> rw [List.mem_singleton] at hr <;> rw [hr] <;> exact hfirst
      · rcases List.mem_cons.mp hr with rfl | hr
        · exact hfirst
        · cases n with
          | zero => cases hr
          | succ n =>
              have hnext : (i + 1).toNat = i.toNat + 1 := by
                rw [BitVec.toNat_add]
                show (i.toNat + 1) % 2 ^ 32 = _
                omega
              obtain ⟨j, hj, heq⟩ := ih hr (by omega)
              exact ⟨j, by omega, heq⟩

/-- The first entry is read whenever there is one. -/
theorem first_read (h : 0 < a.rootEntryCount.toNat) :
    a.entryAt 0 ∈ a.entriesRead m signature := by
  unfold entriesRead
  obtain ⟨n, hn⟩ := Nat.exists_eq_succ_of_ne_zero h.ne'
  rw [hn]
  unfold search
  dsimp only
  split
  · split <;> exact List.mem_singleton.mpr rfl
  · exact List.mem_cons_self

/-- An entry at `r` lies inside `[root_table + 36, root_table + length)`. -/
def EntryInside (length : BitVec 32) (r : Word) : Prop :=
  acpiTableHeaderSize ≤ (r - a.rootTable).toNat ∧
    (r - a.rootTable).toNat + a.stride ≤ length.toNat

end Acpi

/-! ## Firmware images -/

/-- Memory that holds the listed bytes at the listed addresses and is zero
elsewhere. -/
def imageOf (segments : List (Nat × List Nat)) : Mem := fun x =>
  BitVec.ofNat 8 ((segments.findSome? (fun s => if s.1 ≤ x then s.2[x - s.1]? else none)).getD 0)

/-- An RSDP at `0x1000` for a root table at `0x2000`, by either path. -/
def rsdpBytes (revision : Nat) : List Nat :=
  "RSD PTR ".toList.map Char.toNat ++ [if revision = 0 then 193 else 223] ++
    List.replicate 6 0 ++ [revision] ++
    (if revision = 0 then [0, 0x20, 0, 0] ++ List.replicate 16 0
      else [0, 0, 0, 0, 36, 0, 0, 0, 0, 0x20, 0, 0, 0, 0, 0, 0, 188, 0, 0, 0])

/-- A table: signature, length, checksum and what follows the header. -/
def tableBytes (signature : String) (length sum : Nat) (body : List Nat) : List Nat :=
  signature.toList.map Char.toNat ++ [length, 0, 0, 0, 0, sum] ++ List.replicate 26 0 ++ body

/-- The RSDP leads to an XSDT of length zero. -/
def shortXsdt : Mem := imageOf [(0x1000, rsdpBytes 2), (0x2000, tableBytes "XSDT" 0 0 [])]

/-- The XSDT lists one table, at `0x3000`. -/
def xsdtImage : Mem := imageOf [(0x1000, rsdpBytes 2),
  (0x2000, tableBytes "XSDT" 44 97 [0, 0x30, 0, 0, 0, 0, 0, 0]),
  (0x3000, tableBytes "APIC" 36 191 []), (0x4000, "APIC".toList.map Char.toNat)]

/-- Two tables, and the signature of the one at `0x3000`. -/
def twoTables : List (Nat × List Nat) :=
  [(0x3000, tableBytes "APIC" 36 191 []), (0x3100, tableBytes "FACP" 36 194 []),
   (0x4000, "APIC".toList.map Char.toNat)]

/-- The RSDT and the XSDT list both, the other one first. -/
def rsdtImage : Mem := imageOf ((0x1000, rsdpBytes 0) ::
  (0x2000, tableBytes "RSDT" 44 54 [0, 0x31, 0, 0, 0, 0x30, 0, 0]) :: twoTables)

def xsdtOfTwo : Mem := imageOf ((0x1000, rsdpBytes 2) ::
  (0x2000, tableBytes "XSDT" 52 40 [0, 0x31, 0, 0, 0, 0, 0, 0, 0, 0x30, 0, 0, 0, 0, 0, 0]) ::
  twoTables)

/-! ## The search and the root table's length -/

/-- **The search stays inside the root table** exactly if the length that
`acpi_init` accepted covers the table's own header. -/
theorem acpi_entries_inside_iff {boot : BootInfo} {m : Mem} {a : Acpi}
    (h : acpiInit boot m = .ok a) (m' : Mem) (signature : Word) :
    (∀ r ∈ a.entriesRead m' signature, a.EntryInside (tableLength m a.rootTable) r) ↔
      acpiTableHeaderSize ≤ (tableLength m a.rootTable).toNat := by
  have hcount := rootEntryCount_toNat h
  have hlt := (tableLength m a.rootTable).isLt
  have hstride : a.stride = 8 ∨ a.stride = 4 := by
    unfold Acpi.stride
    split <;> simp
  unfold acpiTableHeaderSize
  constructor
  · -- too short a length wraps around, and the first entry is read
    intro hinside
    by_contra hshort
    have hpos : 0 < a.rootEntryCount.toNat := by
      rw [hcount, Nat.mod_eq_of_lt (by omega)]
      exact Nat.div_pos (by omega) a.stride_pos
    have hfirst := (hinside _ (a.first_read m' signature hpos)).2
    rw [a.entryAt_offset] at hfirst
    unfold acpiTableHeaderSize at hfirst
    omega
  · intro hlong r hr
    have hzero : (0 : BitVec 32).toNat = 0 := rfl
    have hn : (0 : BitVec 32).toNat + a.rootEntryCount.toNat ≤ 2 ^ 32 := by
      rw [hzero, Nat.zero_add]
      exact a.rootEntryCount.isLt.le
    obtain ⟨j, hj, rfl⟩ := a.mem_search m' signature hr hn
    have hbytes : (j.toNat + 1) * a.stride ≤ (tableLength m a.rootTable).toNat - 36 := by
      rw [hzero, Nat.zero_add, hcount] at hj
      have hle : (j.toNat + 1) * a.stride ≤ _ := (Nat.le_div_iff_mul_le a.stride_pos).mp hj
      omega
    rw [Nat.add_mul, Nat.one_mul] at hbytes
    unfold Acpi.EntryInside acpiTableHeaderSize
    rw [a.entryAt_offset, Nat.mod_eq_of_lt (by omega)]
    unfold acpiTableHeaderSize
    omega

/-- A root table with one entry. -/
theorem acpi_entries_inside_xsdt :
    ∃ a, acpiInit ⟨0, some 0x1000⟩ xsdtImage = .ok a ∧
      ∀ r ∈ a.entriesRead xsdtImage 0x4000, a.EntryInside 44 r := by
  have hinit : acpiInit ⟨0, some 0x1000⟩ xsdtImage = .ok ⟨0, 0x2000, 1, true⟩ := by
    decide +kernel
  have hlength : tableLength xsdtImage 0x2000 = 44 := by decide +kernel
  refine ⟨_, hinit, ?_⟩
  have hiff := acpi_entries_inside_iff hinit xsdtImage 0x4000
  rw [hlength] at hiff
  exact hiff.mpr (by decide)

/-- **A root table of length zero** passes the checksum, and the search reads
an entry behind its end. -/
theorem acpi_reads_outside :
    ∃ a, acpiInit ⟨0, some 0x1000⟩ shortXsdt = .ok a ∧
      ∃ r ∈ a.entriesRead shortXsdt 0x4000, ¬ a.EntryInside (tableLength shortXsdt a.rootTable) r := by
  have hinit : acpiInit ⟨0, some 0x1000⟩ shortXsdt = .ok ⟨0, 0x2000, 536870907, true⟩ := by
    decide +kernel
  refine ⟨_, hinit, _, Acpi.first_read _ _ _ (by decide), ?_⟩
  have hlength : tableLength shortXsdt 0x2000 = 0 := by decide +kernel
  rw [hlength]
  intro hinside
  exact absurd hinside.2 (by decide)

/-! ## What the search finds -/

/-- The root table lists `tables`: its length is the header and the entries,
and entry `i` holds the address of table `i`. -/
structure Acpi.Lists (a : Acpi) (are64bit : Bool) (m : Mem) (tables : List Word) : Prop where
  path : a.rootEntriesAre64bit = are64bit
  length : (tableLength m a.rootTable).toNat = acpiTableHeaderSize + tables.length * a.stride
  entries : ∀ (i : Nat) (h : i < tables.length),
    loadNat (bytesAt m a.rootTable) (acpiTableHeaderSize + i * a.stride) a.stride =
      tables[i].toNat

/-- The first of `tables` with the signature: NULL if there is none, a panic
if its checksum is bad. -/
def firstListed (hhdmOffset : Word) (m : Mem) (signature : Word) (tables : List Word) :
    Except Panic (Option Word) :=
  match tables.find? (fun t =>
      memcmp (bytesAt m (physToVirt hhdmOffset t)) (bytesAt m signature) 4 = 0) with
  | none => .ok none
  | some t =>
      if checksumOk m (physToVirt hhdmOffset t) (tableLength m (physToVirt hhdmOffset t)) then
        .ok (some (physToVirt hhdmOffset t))
      else .error ⟨"acpi: %s table checksum mismatch", [signature]⟩

namespace Acpi.Lists

variable {a : Acpi} {are64bit : Bool} {m : Mem} {tables : List Word} {boot : BootInfo}

/-- The entry count is the number of listed tables. -/
theorem count (h : a.Lists are64bit m tables) (hinit : acpiInit boot m = .ok a) :
    a.rootEntryCount.toNat = tables.length := by
  have hlt := (tableLength m a.rootTable).isLt
  have hlen := h.length
  unfold acpiTableHeaderSize at hlen
  rw [rootEntryCount_toNat hinit, show (2 ^ 32 - 36 + (tableLength m a.rootTable).toNat) % 2 ^ 32 =
    tables.length * a.stride by omega, Nat.mul_div_cancel _ a.stride_pos]

/-- The search reads the address of table `i` from entry `i`. -/
theorem tablePhys_eq (h : a.Lists are64bit m tables) {i : BitVec 32} (hi : i.toNat < tables.length) :
    a.tablePhys m i = tables[i.toNat] := by
  have hentry := h.entries i.toNat hi
  have hlt := (tableLength m a.rootTable).isLt
  have hlen := h.length
  have hmul : i.toNat * a.stride < 2 ^ 32 := by
    have := Nat.mul_le_mul_right a.stride hi.le
    omega
  -- the bytes of the entry, seen from the root table
  have hbytes : bytesAt m (a.entryAt i) =
      fun x => bytesAt m a.rootTable (acpiTableHeaderSize + i.toNat * a.stride + x) := by
    funext x
    rw [a.entryAt_eq, Nat.mod_eq_of_lt hmul, bytesAt_add]
  have hload : ∀ n, loadNat (bytesAt m (a.entryAt i)) 0 n =
      loadNat (bytesAt m a.rootTable) (acpiTableHeaderSize + i.toNat * a.stride) n := by
    intro n
    rw [hbytes, loadNat_offset, Nat.add_zero]
  apply BitVec.eq_of_toNat_eq
  unfold tablePhys load64At load32At load64
  cases hwide : a.rootEntriesAre64bit with
  | true =>
      have hstride : a.stride = 8 := by simp [stride, hwide]
      rw [if_pos rfl, hload, ← hentry, hstride]
      exact toNat_ofNat_of_lt (loadNat_lt _ 8 _)
  | false =>
      have hstride : a.stride = 4 := by simp [stride, hwide]
      have hsmall := loadNat_lt (bytesAt m a.rootTable) 4
        (acpiTableHeaderSize + i.toNat * a.stride)
      rw [if_neg Bool.false_ne_true, hload, ← hentry, hstride, BitVec.toNat_setWidth,
        BitVec.toNat_ofNat]
      rw [hstride] at hsmall
      omega

/-- **Either root table gives the first listed table.** -/
theorem search_eq (h : a.Lists are64bit m tables) (signature : Word) : ∀ {n : Nat} {i : BitVec 32},
    i.toNat + n = tables.length →
      (a.search m signature i n).2 =
        firstListed a.hhdmOffset m signature (tables.drop i.toNat) := by
  intro n
  induction n with
  | zero =>
      intro i hi
      rw [List.drop_eq_nil_of_le (by omega)]
      rfl
  | succ n ih =>
      intro i hi
      have hlt : i.toNat < tables.length := by omega
      unfold search
      rw [List.drop_eq_getElem_cons hlt, h.tablePhys_eq hlt]
      dsimp only
      by_cases hsig : memcmp (bytesAt m (physToVirt a.hhdmOffset tables[i.toNat]))
          (bytesAt m signature) 4 = 0
      · unfold firstListed
        rw [if_pos hsig, List.find?_cons_of_pos (by simpa using hsig)]
        dsimp only
        cases checksumOk m (physToVirt a.hhdmOffset tables[i.toNat])
          (tableLength m (physToVirt a.hhdmOffset tables[i.toNat])) <;> rfl
      · rw [if_neg hsig]
        have hrest : firstListed a.hhdmOffset m signature
            (tables[i.toNat] :: tables.drop (i.toNat + 1)) =
            firstListed a.hhdmOffset m signature (tables.drop (i.toNat + 1)) := by
          unfold firstListed
          rw [List.find?_cons_of_neg (by simpa using hsig)]
        have hnext : (i + 1).toNat = i.toNat + 1 := by
          have hlen := h.length
          have htable := (tableLength m a.rootTable).isLt
          have hle := Nat.le_mul_of_pos_right tables.length a.stride_pos
          rw [BitVec.toNat_add]
          show (i.toNat + 1) % 2 ^ 32 = _
          omega
        rw [hrest, ← hnext]
        exact ih (by omega)

theorem findTable_eq (h : a.Lists are64bit m tables) (hinit : acpiInit boot m = .ok a)
    (signature : Word) :
    acpiFindTable a m signature = firstListed boot.hhdmOffset m signature tables := by
  have hzero : (0 : BitVec 32).toNat = 0 := rfl
  unfold acpiFindTable
  rw [h.count hinit, h.search_eq signature (by rw [hzero, Nat.zero_add]), hzero, List.drop_zero,
    (acpiInit_ok hinit).1]

end Acpi.Lists

/-! ## The same tables under another root -/

section Same

variable {m m' : Mem} {p : Word}

theorem checksum_congr {n : Nat} (h : ∀ o, o < n → bytesAt m' p o = bytesAt m p o) :
    checksum m' p n = checksum m p n := by
  induction n with
  | zero => rfl
  | succ n ih =>
      unfold checksum
      rw [ih (fun o ho => h o (by omega)), h n (by omega)]

theorem tableLength_congr (h : ∀ o, o < 8 → bytesAt m' p o = bytesAt m p o) :
    tableLength m' p = tableLength m p := by
  have hfield : ∀ m : Mem, tableLength m p = BitVec.ofNat 32 (loadNat (bytesAt m p) 4 4) := by
    intro m
    have hshift : bytesAt m (p + 4) = fun x => bytesAt m p (4 + x) := by
      funext x
      exact bytesAt_add m p 4 x
    unfold tableLength load32At
    rw [hshift, loadNat_offset]
  rw [hfield, hfield, loadNat_congr 4 4 (fun x _ hx => h x (by omega))]

/-- The two memories hold the same tables: their headers and their contents. -/
def SameTables (hhdmOffset : Word) (m m' : Mem) (tables : List Word) : Prop :=
  ∀ t ∈ tables, ∀ o, o < max 8 (tableLength m (physToVirt hhdmOffset t)).toNat →
    bytesAt m' (physToVirt hhdmOffset t) o = bytesAt m (physToVirt hhdmOffset t) o

/-- What is found depends on the listed tables and the signature only. -/
theorem firstListed_congr {hhdmOffset signature : Word} {tables : List Word}
    (h : SameTables hhdmOffset m m' tables)
    (hsig : ∀ i, i < 4 → bytesAt m' signature i = bytesAt m signature i) :
    firstListed hhdmOffset m' signature tables = firstListed hhdmOffset m signature tables := by
  induction tables with
  | nil => rfl
  | cons t tables ih =>
      have ht := h t List.mem_cons_self
      have hmatch : memcmp (bytesAt m' (physToVirt hhdmOffset t)) (bytesAt m' signature) 4 = 0 ↔
          memcmp (bytesAt m (physToVirt hhdmOffset t)) (bytesAt m signature) 4 = 0 := by
        rw [memcmp_eq_zero, memcmp_eq_zero]
        constructor <;> intro heq j hj
        · rw [← ht j (by omega), ← hsig j hj]
          exact heq j hj
        · rw [ht j (by omega), hsig j hj]
          exact heq j hj
      unfold firstListed
      by_cases hfound : memcmp (bytesAt m (physToVirt hhdmOffset t)) (bytesAt m signature) 4 = 0
      · rw [List.find?_cons_of_pos (by simpa using hmatch.mpr hfound),
          List.find?_cons_of_pos (by simpa using hfound)]
        dsimp only
        have hlength := tableLength_congr (fun o ho => ht o (by omega))
        unfold checksumOk
        rw [hlength, checksum_congr (fun o ho => ht o (by omega))]
      · rw [List.find?_cons_of_neg (by simpa using mt hmatch.mp hfound),
          List.find?_cons_of_neg (by simpa using hfound)]
        exact ih (fun t ht => h t (List.mem_cons_of_mem _ ht))

end Same

/-- **RSDT and XSDT give the same answers.** Two machines with the same tables
in memory, one listing them in 32-bit entries and one in 64-bit entries, both
return the first listed table with the signature, NULL if there is none, and
panic if that table's checksum is bad. -/
theorem acpi_find_table_rsdt_xsdt {bootR bootX : BootInfo} {mR mX : Mem} {rsdt xsdt : Acpi}
    {tables : List Word} {signature : Word}
    (hrsdt : acpiInit bootR mR = .ok rsdt) (hlistsR : rsdt.Lists false mR tables)
    (hxsdt : acpiInit bootX mX = .ok xsdt) (hlistsX : xsdt.Lists true mX tables)
    (hhdm : bootX.hhdmOffset = bootR.hhdmOffset)
    (htables : SameTables bootR.hhdmOffset mR mX tables)
    (hsig : ∀ i, i < 4 → bytesAt mX signature i = bytesAt mR signature i) :
    acpiFindTable rsdt mR signature = firstListed bootR.hhdmOffset mR signature tables ∧
    acpiFindTable xsdt mX signature = firstListed bootR.hhdmOffset mR signature tables := by
  constructor
  · exact hlistsR.findTable_eq hrsdt signature
  · rw [hlistsX.findTable_eq hxsdt signature, hhdm]
    exact firstListed_congr htables hsig

/-- Both images give the second table, at `0x3000`. -/
theorem acpi_find_table_rsdt_xsdt_apic :
    ∃ rsdt xsdt, acpiInit ⟨0, some 0x1000⟩ rsdtImage = .ok rsdt ∧
      acpiInit ⟨0, some 0x1000⟩ xsdtOfTwo = .ok xsdt ∧
      acpiFindTable rsdt rsdtImage 0x4000 = .ok (some 0x3000) ∧
      acpiFindTable xsdt xsdtOfTwo 0x4000 = .ok (some 0x3000) := by
  have hrsdt : acpiInit ⟨0, some 0x1000⟩ rsdtImage = .ok ⟨0, 0x2000, 2, false⟩ := by
    decide +kernel
  have hxsdt : acpiInit ⟨0, some 0x1000⟩ xsdtOfTwo = .ok ⟨0, 0x2000, 2, true⟩ := by
    decide +kernel
  have hfirst : firstListed 0 rsdtImage 0x4000 [0x3100, 0x3000] = .ok (some 0x3000) := by
    decide +kernel
  have hsame : SameTables 0 rsdtImage xsdtOfTwo [0x3100, 0x3000] := by
    intro t ht
    rcases List.mem_pair.mp ht with rfl | rfl <;> decide +kernel
  have hlistsR : Acpi.Lists ⟨0, 0x2000, 2, false⟩ false rsdtImage [0x3100, 0x3000] :=
    ⟨rfl, by decide +kernel, by decide +kernel⟩
  have hlistsX : Acpi.Lists ⟨0, 0x2000, 2, true⟩ true xsdtOfTwo [0x3100, 0x3000] :=
    ⟨rfl, by decide +kernel, by decide +kernel⟩
  have hsig : ∀ i, i < 4 → bytesAt xsdtOfTwo 0x4000 i = bytesAt rsdtImage 0x4000 i := by
    decide +kernel
  obtain ⟨hR, hX⟩ := acpi_find_table_rsdt_xsdt hrsdt hlistsR hxsdt hlistsX rfl hsame hsig
  exact ⟨_, _, hrsdt, hxsdt, hR.trans hfirst, hX.trans hfirst⟩

end QuinKernel
