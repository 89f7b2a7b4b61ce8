import QuinKernel.Acpi.Theorems

/-!
# What `acpi_init` accepts

The RSDP has two checksums: one over its first 20 bytes and, from revision 2
on, one over all 36. A failed second one does not stop `acpi_init`: the test
stands in the condition that chooses the XSDT, so the RSDT is taken instead.
-/

namespace QuinKernel

open Machine

/-! ## Signatures and byte sums -/

/-- The `n` bytes at `p` are those of `text`. -/
def Spells (m : Mem) (p : Word) (text : String) (n : Nat) : Prop :=
  ∀ i < n, bytesAt m p i = literal text i

/-- The sum of the `n` bytes at `p`. -/
def byteSum (m : Mem) (p : Word) (n : Nat) : Nat :=
  ∑ i ∈ Finset.range n, (bytesAt m p i).toNat

theorem checksum_toNat (m : Mem) (p : Word) (n : Nat) :
    (checksum m p n).toNat = byteSum m p n % 256 := by
  induction n with
  | zero => rfl
  | succ n ih =>
      unfold checksum byteSum
      rw [BitVec.toNat_add, ih, Finset.sum_range_succ, Nat.mod_add_mod]
      rfl

theorem checksumOk_iff {m : Mem} {p : Word} {length : BitVec 32} {n : Nat}
    (hn : length.toNat = n) : checksumOk m p length = true ↔ byteSum m p n % 256 = 0 := by
  unfold checksumOk
  rw [decide_eq_true_iff, hn, ← checksum_toNat, ← BitVec.toNat_inj]
  rfl

/-- The checksum of an RSDP from ACPI 1.0. -/
theorem checksumOk_20 {m : Mem} {p : Word} :
    checksumOk m p 20 = true ↔ byteSum m p 20 % 256 = 0 := checksumOk_iff (by decide)

/-- The extended checksum. -/
theorem checksumOk_36 {m : Mem} {p : Word} :
    checksumOk m p 36 = true ↔ byteSum m p 36 % 256 = 0 := checksumOk_iff (by decide)

/-- The RSDP of ACPI 1.0: its signature, and the sum of its 20 bytes. -/
structure RsdpValid (m : Mem) (rsdp : Word) : Prop where
  signature : Spells m rsdp "RSD PTR " 8
  sum : byteSum m rsdp 20 % 256 = 0

/-- A table with the signature `name`, and the sum of its bytes. -/
structure TableValid (m : Mem) (table : Word) (name : String) : Prop where
  signature : Spells m table name 4
  sum : byteSum m table (tableLength m table).toNat % 256 = 0

/-- The root table's physical address, on either path. -/
def rootPhys (m : Mem) (rsdp : Word) (are64bit : Bool) : Word :=
  if are64bit then rsdpXsdtAddress m rsdp else (rsdpRsdtAddress m rsdp).setWidth 64

/-- The table is valid for the path it was accepted on. -/
def RootValid (m : Mem) (a : Acpi) : Prop :=
  TableValid m a.rootTable (if a.rootEntriesAre64bit then "XSDT" else "RSDT")

/-- What a machine that `acpi_init` accepts should have: a valid RSDP, a valid
extended checksum from revision 2 on, and a valid root table. -/
structure Accepted (boot : BootInfo) (m : Mem) (a : Acpi) (rsdp : Word) : Prop where
  answered : boot.rsdp = some rsdp
  valid : RsdpValid m rsdp
  extended : 2 ≤ (rsdpRevision m rsdp).toNat → byteSum m rsdp 36 % 256 = 0
  selected : a.rootTable = physToVirt boot.hhdmOffset (rootPhys m rsdp a.rootEntriesAre64bit)
  root : RootValid m a

/-- The RSDP is of revision 2 or later with a bad extended checksum, and all
that ACPI 1.0 has is valid. -/
def OnlyExtendedBad (boot : BootInfo) (m : Mem) : Prop :=
  ∃ rsdp, boot.rsdp = some rsdp ∧ RsdpValid m rsdp ∧ 2 ≤ (rsdpRevision m rsdp).toNat ∧
    byteSum m rsdp 36 % 256 ≠ 0 ∧
    TableValid m (physToVirt boot.hhdmOffset (rootPhys m rsdp false)) "RSDT"

/-! ## The decision -/

theorem rootPhys_true (m : Mem) (rsdp : Word) : rootPhys m rsdp true = rsdpXsdtAddress m rsdp := rfl

theorem rootPhys_false (m : Mem) (rsdp : Word) :
    rootPhys m rsdp false = (rsdpRsdtAddress m rsdp).setWidth 64 := rfl

section Root

variable {m : Mem} {hhdmOffset root : Word} {name mismatch : String} {are64bit : Bool} {a : Acpi}

theorem TableValid.accepted (h : TableValid m root name) :
    ∃ a, acceptRoot m hhdmOffset root name are64bit mismatch = .ok a ∧
      a.rootEntriesAre64bit = are64bit := by
  unfold acceptRoot
  rw [if_neg]
  · exact ⟨_, rfl, rfl⟩
  · rintro (hsig | hsum)
    · exact hsig (memcmp_eq_zero.mpr h.signature)
    · exact hsum ((checksumOk_iff rfl).mpr h.sum)

theorem tableValid_of_accepted
    (h : acceptRoot m hhdmOffset root name are64bit mismatch = .ok a) :
    TableValid m root name ∧ a.rootTable = root ∧ a.rootEntriesAre64bit = are64bit := by
  unfold acceptRoot at h
  split at h
  · cases h
  · next hok =>
      rw [not_or, not_not, not_not] at hok
      cases h
      exact ⟨⟨memcmp_eq_zero.mp hok.1, (checksumOk_iff rfl).mp hok.2⟩, rfl, rfl⟩

end Root

theorem RootValid.xsdt {m : Mem} {a : Acpi} (hwide : a.rootEntriesAre64bit = true)
    (h : TableValid m a.rootTable "XSDT") : RootValid m a := by
  unfold RootValid
  rwa [if_pos hwide]

theorem rootValid_rsdt {m : Mem} {a : Acpi} (hwide : a.rootEntriesAre64bit = false) :
    RootValid m a ↔ TableValid m a.rootTable "RSDT" := by
  unfold RootValid
  rw [if_neg (by rw [hwide]; exact Bool.false_ne_true)]

/-- `acpi_init` returns after the checks of one path. -/
theorem acpiInit_cases {boot : BootInfo} {m : Mem} {a : Acpi} (h : acpiInit boot m = .ok a) :
    ∃ rsdp, boot.rsdp = some rsdp ∧ RsdpValid m rsdp ∧
      a.rootTable = physToVirt boot.hhdmOffset (rootPhys m rsdp a.rootEntriesAre64bit) ∧
      RootValid m a ∧
      (a.rootEntriesAre64bit = true ↔
        2 ≤ (rsdpRevision m rsdp).toNat ∧ byteSum m rsdp 36 % 256 = 0) := by
  unfold acpiInit at h
  split at h
  · cases h
  · next rsdp hrsdp =>
      split at h
      · cases h
      · next hsig =>
          split at h
          · cases h
          · next hsum =>
              have hvalid : RsdpValid m rsdp :=
                ⟨memcmp_eq_zero.mp (not_not.mp hsig), checksumOk_20.mp (not_not.mp hsum)⟩
              refine ⟨rsdp, hrsdp, hvalid, ?_⟩
              split at h
              · next hext =>
                  obtain ⟨htable, hroot, hwide⟩ := tableValid_of_accepted h
                  rw [← hroot] at htable
                  refine ⟨?_, .xsdt hwide htable, iff_of_true hwide ⟨hext.1, checksumOk_36.mp hext.2⟩⟩
                  rw [hroot, hwide, rootPhys_true]
              · next hext =>
                  obtain ⟨htable, hroot, hwide⟩ := tableValid_of_accepted h
                  rw [← hroot] at htable
                  refine ⟨?_, (rootValid_rsdt hwide).mpr htable, iff_of_false ?_ ?_⟩
                  · rw [hroot, hwide, rootPhys_false]
                  · rw [hwide]
                    exact Bool.false_ne_true
                  · exact fun hgood => hext ⟨hgood.1, checksumOk_36.mpr hgood.2⟩

/-- The fallback is taken with a bad extended checksum. -/
theorem acpiInit_of_onlyExtendedBad {boot : BootInfo} {m : Mem} (h : OnlyExtendedBad boot m) :
    ∃ a, acpiInit boot m = .ok a := by
  obtain ⟨rsdp, hrsdp, hvalid, hrev, hbad, htable⟩ := h
  rw [rootPhys_false] at htable
  have hsig := memcmp_eq_zero.mpr hvalid.signature
  have hsum := checksumOk_20.mpr hvalid.sum
  have hext : ¬(rsdpRevision m rsdp ≥ 2 ∧ checksumOk m rsdp 36 = true) :=
    fun hext => hbad (checksumOk_36.mp hext.2)
  obtain ⟨a, ha, -⟩ := htable.accepted
  refine ⟨a, ?_⟩
  unfold acpiInit
  rw [hrsdp]
  dsimp only
  rw [if_neg (not_not.mpr hsig), if_neg (not_not.mpr hsum), if_neg hext]
  exact ha

/-- **What `acpi_init` accepts.** On any firmware memory, the machines it
accepts have a valid RSDP, extended checksum included, and a valid root table,
except where the extended checksum alone is bad. -/
theorem acpi_init_accepts_iff (boot : BootInfo) (m : Mem) :
    (∀ a, acpiInit boot m = .ok a → ∃ rsdp, Accepted boot m a rsdp) ↔
      ¬OnlyExtendedBad boot m := by
  constructor
  · intro h hbad
    obtain ⟨a, ha⟩ := acpiInit_of_onlyExtendedBad hbad
    obtain ⟨rsdp, hrsdp, -, hrev, hsum, -⟩ := hbad
    obtain ⟨rsdp', hok⟩ := h a ha
    obtain rfl := Option.some.inj (hrsdp.symm.trans hok.answered)
    exact hsum (hok.extended hrev)
  · intro h a ha
    obtain ⟨rsdp, hrsdp, hvalid, hselected, htable, hwide⟩ := acpiInit_cases ha
    refine ⟨rsdp, hrsdp, hvalid, fun hrev => ?_, hselected, htable⟩
    by_contra hsum
    have hnarrow : a.rootEntriesAre64bit = false := by
      rw [← Bool.not_eq_true, hwide]
      exact fun hext => hsum hext.2
    rw [rootValid_rsdt hnarrow, hselected, hnarrow] at htable
    exact h ⟨rsdp, hrsdp, hvalid, hrev, hsum, htable⟩

/-- An RSDP of revision 2 whose extended checksum is bad, and a valid RSDT. -/
def badExtendedImage : Mem := imageOf [
  (0x1000, "RSD PTR ".toList.map Char.toNat ++ [191] ++ List.replicate 6 0 ++
    [2, 0, 0x20, 0, 0, 36, 0, 0, 0] ++ List.replicate 12 0),
  (0x2000, tableBytes "RSDT" 36 159 [])]

/-- It is accepted. -/
theorem acpi_init_accepts_badExtended :
    ¬∀ boot m a, acpiInit boot m = .ok a → ∃ rsdp, Accepted boot m a rsdp := by
  intro h
  have hinit : acpiInit ⟨0, some 0x1000⟩ badExtendedImage = .ok ⟨0, 0x2000, 0, false⟩ := by
    decide +kernel
  obtain ⟨rsdp, hok⟩ := h _ _ _ hinit
  obtain rfl := Option.some.inj hok.answered
  have hsum := hok.extended (by decide +kernel)
  exact absurd hsum (by decide +kernel)

end QuinKernel
