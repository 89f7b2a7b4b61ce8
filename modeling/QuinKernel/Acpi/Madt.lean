import QuinKernel.Acpi.Accept

/-!
# `kernel/acpi/madt.c`

`madt_parse` with the bytes it reads. The loop stops at an entry whose declared
length leaves the table, so it never walks out of it; but an entry is read at
the fields its type has, whatever length it declares. The table is left by the
last entry of a type with more fields than bytes that remain, and by a table
shorter than `local_apic_address` (`madt_reads_inside_iff`).

The loop runs on fuel; `none` means it ran out.
-/

namespace QuinKernel

open Machine

/-! ## Model -/

/-- `struct madt_info`. -/
structure MadtInfo where
  localApicAddress : Word
  enabledCpuCount : BitVec 32
  haveIoapic : Bool
  ioapicAddress : Word
  ioapicGsiBase : BitVec 32
  deriving DecidableEq, Repr

/-- `*out` after the `memset`. -/
def MadtInfo.zero : MadtInfo := ⟨0, 0, false, 0, 0⟩

/-- `size` bytes read at `addr`. -/
structure Read where
  addr : Word
  size : Nat
  deriving DecidableEq, Repr

/-- `MADT_ENTRY_LOCAL_APIC`. -/
def madtEntryLocalApic : Byte := 0

/-- `MADT_ENTRY_IOAPIC`. -/
def madtEntryIoapic : Byte := 1

/-- `LOCAL_APIC_FLAG_ENABLED`. -/
def localApicFlagEnabled : BitVec 32 := 1

/-- `entry_header->type`. -/
def entryType (m : Mem) (cursor : Word) : Byte := m cursor.toNat

/-- `entry_header->length`, as it is added to a pointer. -/
def entryLength (m : Mem) (cursor : Word) : Word := (m (cursor + 1).toNat).setWidth 64

/-- What the loop takes from an entry. -/
def takeEntry (m : Mem) (cursor : Word) (out : MadtInfo) : MadtInfo :=
  if entryType m cursor = madtEntryLocalApic then
    if load32At m (cursor + 4) &&& localApicFlagEnabled ≠ 0 then
      { out with enabledCpuCount := out.enabledCpuCount + 1 }
    else out
  else if entryType m cursor = madtEntryIoapic ∧ ¬out.haveIoapic then
    { out with
      haveIoapic := true
      ioapicAddress := (load32At m (cursor + 4)).setWidth 64
      ioapicGsiBase := load32At m (cursor + 8) }
  else out

/-- The bytes read to do so: the type, and the fields used. -/
def entryReads (m : Mem) (cursor : Word) (haveIoapic : Bool) : List Read :=
  ⟨cursor, 1⟩ ::
    if entryType m cursor = madtEntryLocalApic then [⟨cursor + 4, 4⟩]
    else if entryType m cursor = madtEntryIoapic ∧ ¬haveIoapic then
      [⟨cursor + 4, 4⟩, ⟨cursor + 8, 4⟩]
    else []

/-- The loop of `madt_parse` from `cursor` on. -/
def madtWalk (m : Mem) (end_ : Word) : Nat → Word → MadtInfo → Option (List Read × MadtInfo)
  | 0, _, _ => none
  | fuel + 1, cursor, out =>
      if cursor + 2 ≤ end_ then
        if entryLength m cursor = 0 ∨ end_ < cursor + entryLength m cursor then
          some ([⟨cursor + 1, 1⟩], out) -- malformed table
        else
          (madtWalk m end_ fuel (cursor + entryLength m cursor) (takeEntry m cursor out)).map
            (fun (reads, out') =>
              (⟨cursor + 1, 1⟩ :: entryReads m cursor out.haveIoapic ++ reads, out'))
      else some ([], out)

/-- `end`: one past the table's last byte. -/
def madtEnd (m : Mem) (table : Word) : Word := table + (tableLength m table).setWidth 64

/-- `*out` before the loop. -/
def madtStart (m : Mem) (table : Word) : MadtInfo :=
  { MadtInfo.zero with localApicAddress := (load32At m (table + 36)).setWidth 64 }

/-- `madt_parse` on the table found. -/
def madtParseTable (m : Mem) (table : Word) (fuel : Nat) : Option (List Read × MadtInfo) :=
  (madtWalk m (madtEnd m table) fuel (table + 44) (madtStart m table)).map
    (fun (reads, out) => (⟨table + 36, 4⟩ :: ⟨table + 4, 4⟩ :: reads, out))

/-- `madt_parse`: its result, the bytes of the table it reads and `*out`. The
literal `"APIC"` lies at `apic`. -/
def madtParse (a : Acpi) (m : Mem) (apic : Word) (fuel : Nat) :
    Except Panic (Option (Bool × List Read × MadtInfo)) :=
  match acpiFindTable a m apic with
  | .error p => .error p
  | .ok none => .ok (some (false, [], MadtInfo.zero))
  | .ok (some table) => .ok ((madtParseTable m table fuel).map (fun r => (true, r)))

/-! ## Inside the table -/

/-- The offset of `p` in the table. -/
def offsetIn (table p : Word) : Nat := (p - table).toNat

/-- Every byte read lies below `length`. -/
def Read.Inside (table : Word) (length : Nat) (r : Read) : Prop :=
  ∀ i < r.size, offsetIn table (r.addr + BitVec.ofNat 64 i) < length

/-- `madt_parse` terminates and reads no byte of the table at or above its
`header.length`. -/
def MadtReadsInside (a : Acpi) (m : Mem) (apic table : Word) : Prop :=
  ∃ fuel reads out, madtParse a m apic fuel = .ok (some (true, reads, out)) ∧
    ∀ r ∈ reads, r.Inside table (tableLength m table).toNat

/-- The entry at `cursor` ends inside the table, by its declared length. -/
structure EntryFits (m : Mem) (end_ cursor : Word) : Prop where
  header : cursor + 2 ≤ end_
  nonzero : entryLength m cursor ≠ 0
  ends : cursor + entryLength m cursor ≤ end_

/-- The positions that entries which fit lead to, one after the other; and
whether an IOAPIC entry was among those before. -/
inductive EntryAt (m : Mem) (table : Word) : Word → Bool → Prop
  | first : EntryAt m table (table + 44) false
  | next {cursor : Word} {haveIoapic : Bool} : EntryAt m table cursor haveIoapic →
      EntryFits m (madtEnd m table) cursor →
      EntryAt m table (cursor + entryLength m cursor)
        (haveIoapic || entryType m cursor == madtEntryIoapic)

/-- Bytes of an entry up to the last field used: a Local APIC entry's `flags`,
the `gsi_base` of the first IOAPIC entry, the length of any other. -/
def bytesUsed (type : Byte) (haveIoapic : Bool) : Nat :=
  if type = madtEntryLocalApic then 8
  else if type = madtEntryIoapic ∧ ¬haveIoapic then 12
  else 2

/-- The table reaches to the end of `local_apic_address`, and every entry's
used bytes lie in it. -/
structure MadtCovers (m : Mem) (table : Word) : Prop where
  fixed : 40 ≤ (tableLength m table).toNat
  header : ∀ cursor haveIoapic, EntryAt m table cursor haveIoapic →
    cursor + 2 ≤ madtEnd m table → offsetIn table cursor + 2 ≤ (tableLength m table).toNat
  entry : ∀ cursor haveIoapic, EntryAt m table cursor haveIoapic →
    EntryFits m (madtEnd m table) cursor →
    offsetIn table cursor + bytesUsed (entryType m cursor) haveIoapic ≤
      (tableLength m table).toNat

section Offsets

variable {m : Mem} {table p : Word} {length : Nat}

theorem offsetIn_self (table : Word) : offsetIn table table = 0 := by
  unfold offsetIn
  rw [BitVec.sub_self]
  rfl

theorem offsetIn_add {k : Nat} (h : offsetIn table p + k < 2 ^ 64) :
    offsetIn table (p + BitVec.ofNat 64 k) = offsetIn table p + k := by
  have hmove : p + BitVec.ofNat 64 k - table = p - table + BitVec.ofNat 64 k := by
    rw [BitVec.sub_eq_add_neg, BitVec.sub_eq_add_neg, BitVec.add_assoc, BitVec.add_assoc,
      BitVec.add_comm (BitVec.ofNat 64 k)]
  unfold offsetIn at *
  rw [hmove, BitVec.toNat_add, toNat_ofNat_of_lt (by omega), Nat.mod_eq_of_lt h]

theorem offsetIn_first (table : Word) : offsetIn table (table + 44) = 44 := by
  have hzero := offsetIn_self table
  have hstart : offsetIn table (table + BitVec.ofNat 64 44) = offsetIn table table + 44 :=
    offsetIn_add (by omega)
  rwa [hzero] at hstart

/-- A field `k` bytes on. -/
theorem inside_iff {k n : Nat} (hn : 0 < n) (h : offsetIn table p + k + n ≤ 2 ^ 64) :
    Read.Inside table length ⟨p + BitVec.ofNat 64 k, n⟩ ↔ offsetIn table p + k + n ≤ length := by
  have hbyte : ∀ i < n, offsetIn table (p + BitVec.ofNat 64 k + BitVec.ofNat 64 i) =
      offsetIn table p + (k + i) := by
    intro i hi
    rw [BitVec.add_assoc, ← BitVec.ofNat_add, offsetIn_add (by omega)]
  unfold Read.Inside
  dsimp only
  constructor
  · intro hall
    have hlast := hall (n - 1) (by omega)
    rw [hbyte _ (by omega)] at hlast
    omega
  · intro hle i hi
    rw [hbyte i hi]
    omega

/-- The reads of one entry stay in the table when its used bytes do. -/
theorem entry_inside_iff (haveIoapic : Bool) (h : offsetIn table p + 12 ≤ 2 ^ 64) :
    (∀ r ∈ ⟨p + 1, 1⟩ :: entryReads m p haveIoapic, r.Inside table length) ↔
      offsetIn table p + bytesUsed (entryType m p) haveIoapic ≤ length := by
  have htype : Read.Inside table length ⟨p + BitVec.ofNat 64 0, 1⟩ ↔
      offsetIn table p + 0 + 1 ≤ length :=
    inside_iff (k := 0) (by omega) (by omega)
  rw [show p + BitVec.ofNat 64 0 = p from BitVec.add_zero p] at htype
  have hlength : Read.Inside table length ⟨p + 1, 1⟩ ↔ offsetIn table p + 1 + 1 ≤ length :=
    inside_iff (k := 1) (by omega) (by omega)
  have hfirst : Read.Inside table length ⟨p + 4, 4⟩ ↔ offsetIn table p + 4 + 4 ≤ length :=
    inside_iff (k := 4) (by omega) (by omega)
  have hsecond : Read.Inside table length ⟨p + 8, 4⟩ ↔ offsetIn table p + 8 + 4 ≤ length :=
    inside_iff (k := 8) (by omega) (by omega)
  unfold entryReads bytesUsed
  rw [List.forall_mem_cons, List.forall_mem_cons, htype, hlength]
  split
  · rw [List.forall_mem_singleton, hfirst]
    omega
  · split
    · rw [List.forall_mem_cons, List.forall_mem_singleton, hfirst, hsecond]
      omega
    · simp only [List.not_mem_nil, false_implies, implies_true, and_true]
      omega

end Offsets

/-! ## The walk -/

section Walk

variable {m : Mem} {table cursor : Word} {out : MadtInfo}

theorem takeEntry_haveIoapic (m : Mem) (cursor : Word) (out : MadtInfo) :
    (takeEntry m cursor out).haveIoapic =
      (out.haveIoapic || entryType m cursor == madtEntryIoapic) := by
  unfold takeEntry
  by_cases hlapic : entryType m cursor = madtEntryLocalApic
  · have hother : (entryType m cursor == madtEntryIoapic) = false := by
      rw [hlapic]
      rfl
    rw [if_pos hlapic, hother, Bool.or_false]
    split <;> rfl
  · rw [if_neg hlapic]
    by_cases hioapic : entryType m cursor = madtEntryIoapic
    · have hsame : (entryType m cursor == madtEntryIoapic) = true := beq_iff_eq.mpr hioapic
      rw [hsame, Bool.or_true]
      cases hhave : out.haveIoapic with
      | false => rw [if_pos ⟨hioapic, by simp⟩]
      | true => rw [if_neg (by simp), hhave]
    · have hother : (entryType m cursor == madtEntryIoapic) = false := by simpa using hioapic
      rw [if_neg (fun h => hioapic h.1), hother, Bool.or_false]

theorem entryLength_le (m : Mem) (cursor : Word) : (entryLength m cursor).toNat ≤ 255 := by
  have hbyte := (m (cursor + 1).toNat).isLt
  unfold entryLength
  rw [BitVec.toNat_setWidth]
  omega

/-- The offset of the next entry. -/
theorem offsetIn_next (h : offsetIn table cursor < 2 ^ 33) :
    offsetIn table (cursor + entryLength m cursor) =
      offsetIn table cursor + (entryLength m cursor).toNat := by
  have hle := entryLength_le m cursor
  have hadd : offsetIn table (cursor + BitVec.ofNat 64 (entryLength m cursor).toNat) =
      offsetIn table cursor + (entryLength m cursor).toNat := offsetIn_add (by omega)
  rwa [BitVec.ofNat_toNat, BitVec.setWidth_eq] at hadd

/-- The tests of the loop, as one condition. -/
theorem entryFits_iff {end_ : Word} (hheader : cursor + 2 ≤ end_) :
    EntryFits m end_ cursor ↔
      ¬(entryLength m cursor = 0 ∨ end_ < cursor + entryLength m cursor) := by
  rw [not_or, BitVec.not_lt]
  exact ⟨fun h => ⟨h.nonzero, h.ends⟩, fun h => ⟨hheader, h.1, h.2⟩⟩

/-- **Covered entries keep the walk inside**, and it ends after at most a step
a byte. -/
theorem MadtCovers.walk (h : MadtCovers m table) : ∀ {fuel : Nat} {cursor : Word} {out : MadtInfo},
    EntryAt m table cursor out.haveIoapic →
    offsetIn table cursor ≤ (tableLength m table).toNat + 255 →
    (tableLength m table).toNat + 256 - offsetIn table cursor ≤ fuel →
    ∃ reads out', madtWalk m (madtEnd m table) fuel cursor out = some (reads, out') ∧
      ∀ r ∈ reads, r.Inside table (tableLength m table).toNat := by
  intro fuel
  have hlength := (tableLength m table).isLt
  induction fuel with
  | zero =>
      intro cursor out _ hle hfuel
      omega
  | succ fuel ih =>
      intro cursor out hat hle hfuel
      unfold madtWalk
      by_cases hheader : cursor + 2 ≤ madtEnd m table
      · rw [if_pos hheader]
        have hoff := h.header cursor _ hat hheader
        by_cases hfits : EntryFits m (madtEnd m table) cursor
        · rw [if_neg ((entryFits_iff hheader).mp hfits)]
          have hnext : offsetIn table (cursor + entryLength m cursor) =
              offsetIn table cursor + (entryLength m cursor).toNat := offsetIn_next (by omega)
          have hbyte := entryLength_le m cursor
          have hpos : (entryLength m cursor).toNat ≠ 0 :=
            fun hzero => hfits.nonzero (BitVec.eq_of_toNat_eq hzero)
          have hstep : EntryAt m table (cursor + entryLength m cursor)
              (takeEntry m cursor out).haveIoapic := by
            rw [takeEntry_haveIoapic]
            exact hat.next hfits
          obtain ⟨reads, out', hrun, hinside⟩ := ih hstep (by omega) (by omega)
          rw [hrun]
          refine ⟨_, out', rfl, fun r hr => ?_⟩
          rcases List.mem_append.mp hr with hr | hr
          · exact (entry_inside_iff out.haveIoapic (by omega)).mpr (h.entry cursor _ hat hfits) r hr
          · exact hinside r hr
        · rw [if_pos (not_not.mp (mt (entryFits_iff hheader).mpr hfits))]
          refine ⟨_, out, rfl, fun r hr => ?_⟩
          rw [List.mem_singleton.mp hr]
          exact (inside_iff (k := 1) (by omega) (by omega)).mpr (by omega)
      · rw [if_neg hheader]
        exact ⟨[], out, rfl, fun r hr => absurd hr List.not_mem_nil⟩

/-- A walk from `cursor` ends and stays inside. -/
def WalksInside (m : Mem) (table cursor : Word) (haveIoapic : Bool) : Prop :=
  ∃ fuel out reads out', madtWalk m (madtEnd m table) fuel cursor out = some (reads, out') ∧
    out.haveIoapic = haveIoapic ∧ ∀ r ∈ reads, r.Inside table (tableLength m table).toNat

/-- What such a walk has read of the entry at its start. -/
theorem WalksInside.covered {haveIoapic : Bool} (h : WalksInside m table cursor haveIoapic)
    (hoff : offsetIn table cursor < 2 ^ 33) (hheader : cursor + 2 ≤ madtEnd m table) :
    offsetIn table cursor + 2 ≤ (tableLength m table).toNat ∧
    (EntryFits m (madtEnd m table) cursor →
      offsetIn table cursor + bytesUsed (entryType m cursor) haveIoapic ≤
        (tableLength m table).toNat ∧
      WalksInside m table (cursor + entryLength m cursor)
        (haveIoapic || entryType m cursor == madtEntryIoapic)) := by
  obtain ⟨fuel, out, reads, out', hrun, rfl, hinside⟩ := h
  have hlength : Read.Inside table (tableLength m table).toNat ⟨cursor + 1, 1⟩ →
      offsetIn table cursor + 2 ≤ (tableLength m table).toNat := by
    intro hread
    have hle := (inside_iff (k := 1) (by omega) (by omega)).mp hread
    omega
  cases fuel with
  | zero => cases hrun
  | succ fuel =>
      unfold madtWalk at hrun
      rw [if_pos hheader] at hrun
      by_cases hfits : EntryFits m (madtEnd m table) cursor
      · rw [if_neg ((entryFits_iff hheader).mp hfits)] at hrun
        obtain ⟨⟨rest, out''⟩, hrest, heq⟩ := Option.map_eq_some_iff.mp hrun
        obtain ⟨rfl, rfl⟩ := Prod.mk.inj heq
        have hentry := (entry_inside_iff out.haveIoapic (by omega)).mp
          (fun r hr => hinside r (List.mem_append_left _ hr))
        refine ⟨hlength (hinside _ List.mem_cons_self), fun _ => ⟨hentry, ?_⟩⟩
        refine ⟨fuel, _, rest, out'', hrest, takeEntry_haveIoapic m cursor out, fun r hr => ?_⟩
        exact hinside r (List.mem_append_right _ hr)
      · rw [if_pos (not_not.mp (mt (entryFits_iff hheader).mpr hfits))] at hrun
        obtain ⟨rfl, -⟩ := Prod.mk.inj (Option.some.inj hrun)
        exact ⟨hlength (hinside _ List.mem_cons_self), fun h => absurd h hfits⟩

/-- A walk that stays inside does so from every entry it comes to. -/
theorem EntryAt.walksInside {haveIoapic : Bool} (hat : EntryAt m table cursor haveIoapic)
    (h : WalksInside m table (table + 44) false) :
    WalksInside m table cursor haveIoapic ∧
      offsetIn table cursor ≤ (tableLength m table).toNat + 255 := by
  have hlength := (tableLength m table).isLt
  induction hat with
  | first =>
      refine ⟨h, ?_⟩
      rw [offsetIn_first]
      omega
  | @next cursor haveIoapic hat hfits ih =>
      obtain ⟨hwalk, hoff⟩ := ih
      obtain ⟨hle, hrest⟩ := hwalk.covered (by omega) hfits.header
      refine ⟨(hrest hfits).2, ?_⟩
      have hbyte := entryLength_le m cursor
      rw [offsetIn_next (by omega)]
      omega

/-- The fields before the entries. -/
theorem fixed_inside_iff (table : Word) (length : Nat) :
    (Read.Inside table length ⟨table + 36, 4⟩ ∧ Read.Inside table length ⟨table + 4, 4⟩) ↔
      40 ≤ length := by
  have hzero := offsetIn_self table
  have haddress : Read.Inside table length ⟨table + 36, 4⟩ ↔
      offsetIn table table + 36 + 4 ≤ length := inside_iff (k := 36) (by omega) (by omega)
  have hlength : Read.Inside table length ⟨table + 4, 4⟩ ↔
      offsetIn table table + 4 + 4 ≤ length := inside_iff (k := 4) (by omega) (by omega)
  rw [haddress, hlength, hzero]
  omega

end Walk

section Parse

variable {a : Acpi} {m : Mem} {apic table : Word}

theorem madtParse_eq (h : acpiFindTable a m apic = .ok (some table)) (fuel : Nat) :
    madtParse a m apic fuel = .ok ((madtParseTable m table fuel).map (fun r => (true, r))) := by
  unfold madtParse
  rw [h]

theorem MadtReadsInside.covers (hinside : MadtReadsInside a m apic table)
    (h : acpiFindTable a m apic = .ok (some table)) : MadtCovers m table := by
  obtain ⟨fuel, reads, out, hrun, hinside⟩ := hinside
  rw [madtParse_eq h] at hrun
  obtain ⟨⟨reads', out'⟩, htable, heq⟩ := Option.map_eq_some_iff.mp (Except.ok.inj hrun)
  obtain ⟨-, heq⟩ := Prod.mk.inj heq
  obtain ⟨rfl, rfl⟩ := Prod.mk.inj heq
  obtain ⟨⟨walked, out''⟩, hwalk, heq⟩ := Option.map_eq_some_iff.mp htable
  obtain ⟨rfl, rfl⟩ := Prod.mk.inj heq
  have hfixed : 40 ≤ (tableLength m table).toNat :=
    (fixed_inside_iff table _).mp ⟨hinside _ (by simp), hinside _ (by simp)⟩
  have hwalked : WalksInside m table (table + 44) false :=
    ⟨fuel, _, walked, out'', hwalk, rfl, fun r hr => hinside r (by simp [hr])⟩
  have hlength := (tableLength m table).isLt
  refine ⟨hfixed, fun cursor seen hat hheader => ?_, fun cursor seen hat hfits => ?_⟩
  · obtain ⟨hcursor, hoff⟩ := hat.walksInside hwalked
    exact (hcursor.covered (by omega) hheader).1
  · obtain ⟨hcursor, hoff⟩ := hat.walksInside hwalked
    exact ((hcursor.covered (by omega) hfits.header).2 hfits).1

theorem MadtCovers.readsInside (hcovers : MadtCovers m table)
    (h : acpiFindTable a m apic = .ok (some table)) : MadtReadsInside a m apic table := by
  have hfirst := offsetIn_first table
  obtain ⟨walked, out, hwalk, hinside⟩ : ∃ walked out,
      madtWalk m (madtEnd m table) ((tableLength m table).toNat + 256) (table + 44)
        (madtStart m table) = some (walked, out) ∧
      ∀ r ∈ walked, r.Inside table (tableLength m table).toNat :=
    hcovers.walk .first (by omega) (by omega)
  obtain ⟨haddress, hlength⟩ := (fixed_inside_iff table _).mpr hcovers.fixed
  refine ⟨(tableLength m table).toNat + 256, ⟨table + 36, 4⟩ :: ⟨table + 4, 4⟩ :: walked, out,
    ?_, ?_⟩
  · rw [madtParse_eq h]
    unfold madtParseTable
    rw [hwalk]
    rfl
  · intro r hr
    rcases List.mem_cons.mp hr with rfl | hr
    · exact haddress
    · rcases List.mem_cons.mp hr with rfl | hr
      · exact hlength
      · exact hinside r hr

/-- **`madt_parse` stays inside the table** that `acpi_find_table` returned,
and terminates, exactly when the table reaches to the end of
`local_apic_address` and no entry that the loop comes to lies so close to the
end that the fields used of it do not fit. -/
theorem madt_reads_inside_iff (h : acpiFindTable a m apic = .ok (some table)) :
    MadtReadsInside a m apic table ↔ MadtCovers m table :=
  ⟨fun hinside => hinside.covers h, fun hcovers => hcovers.readsInside h⟩

end Parse

/-- An RSDT with one table of `length` bytes at `0x3000`. -/
def madtImage (length sum : Nat) (entries : List Nat) : Mem := imageOf [
  (0x1000, rsdpBytes 0), (0x2000, tableBytes "RSDT" 40 107 [0, 0x30, 0, 0]),
  (0x3000, tableBytes "APIC" length sum (List.replicate 8 0 ++ entries)),
  (0x4000, "APIC".toList.map Char.toNat)]

/-- A table with one Local APIC entry, whole. -/
theorem madt_reads_inside_oneCpu :
    MadtCovers (madtImage 52 166 [0, 8, 0, 0, 1, 0, 0, 0]) 0x3000 := by
  have hfind : acpiFindTable ⟨0, 0x2000, 1, false⟩ (madtImage 52 166 [0, 8, 0, 0, 1, 0, 0, 0])
      0x4000 = .ok (some 0x3000) := by decide +kernel
  have hrun : madtParse ⟨0, 0x2000, 1, false⟩ (madtImage 52 166 [0, 8, 0, 0, 1, 0, 0, 0]) 0x4000 2 =
      .ok (some (true, [⟨0x3024, 4⟩, ⟨0x3004, 4⟩, ⟨0x302d, 1⟩, ⟨0x302c, 1⟩, ⟨0x3030, 4⟩],
        ⟨0, 1, false, 0, 0⟩)) := by decide +kernel
  refine (madt_reads_inside_iff hfind).mp ⟨2, _, _, hrun, ?_⟩
  unfold Read.Inside offsetIn
  decide +kernel

/-- A table whose last entry, a Local APIC entry, declares 2 bytes: its `flags`
are read beyond the table. -/
theorem madt_reads_beyond :
    ¬∀ boot m a apic table, acpiInit boot m = .ok a → Spells m apic "APIC" 4 →
      acpiFindTable a m apic = .ok (some table) → MadtReadsInside a m apic table := by
  intro h
  have hinit : acpiInit ⟨0, some 0x1000⟩ (madtImage 46 179 [0, 2]) =
      .ok ⟨0, 0x2000, 1, false⟩ := by decide +kernel
  have hfind : acpiFindTable ⟨0, 0x2000, 1, false⟩ (madtImage 46 179 [0, 2]) 0x4000 =
      .ok (some 0x3000) := by decide +kernel
  have hspells : Spells (madtImage 46 179 [0, 2]) 0x4000 "APIC" 4 := by
    unfold Spells
    decide +kernel
  have hcovers := (h _ _ _ _ _ hinit hspells hfind).covers hfind
  have hfits : EntryFits (madtImage 46 179 [0, 2]) (madtEnd (madtImage 46 179 [0, 2]) 0x3000)
      (0x3000 + 44) := ⟨by decide +kernel, by decide +kernel, by decide +kernel⟩
  exact absurd (hcovers.entry _ _ .first hfits) (by decide +kernel)

end QuinKernel
