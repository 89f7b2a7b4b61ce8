import QuinKernel.Vmm.Theorems

/-!
# Large pages

The processor ends a walk at an upper-level entry with bit 7 set. The paging
code does not look at that bit: it takes the large page's frame for a table.
`vmm_map_unmap_only_tables` says that this is the only way for the two calls to
touch anything but tables. On a path without large pages they write to tables
and the frame bitmap only; on a path that ends at a 2 MiB page both store into
the memory the page maps (`vmmMap_largePage`, `vmmUnmap_largePage`).
-/

namespace QuinKernel

open Machine RadixTree

/-- Frame `f` lies in a large page that some address translates through. -/
def Vmm.LargeFrame (v : Vmm) (f : Nat) : Prop :=
  ∃ virt levels e, v.walk virt = .largePage levels e ∧
    f / 512 ^ levels = entryFrame e / 512 ^ levels

/-- What a call for the page of `virt` may do. A large page of the direct map
also covers tables, free frames and the bitmap, so the memory it maps as data
is what lies in none of these. -/
structure OnlyTables (v : Vmm) (virt : Word) (v' : Vmm) : Prop where
  writes : ∀ x, v'.pmm.mem x ≠ v.pmm.mem x →
    v'.Table (x / 4096) ∨ v.pmm.HoldsBitmap (x / 4096)
  largeData : ∀ x, v.LargeFrame (x / 4096) → v.Data (x / 4096) → v'.pmm.mem x = v.pmm.mem x
  others : ∀ a, ¬ sameIndices a virt → v'.walk a = v.walk a

section Calls

variable {v v' : Vmm} {virt e : Word} {t : Nat} {i : Fin 512}

/-- Without large pages `vmm_map` writes to tables only. -/
theorem vmmMap_onlyTables (wf : v.WF) (hsmall : v.NoLargePage virt) (phys : Word)
    (flags : BitVec 32) : OnlyTables v virt (vmmMap v virt phys flags).2 := by
  obtain ⟨hkeeps, hcases⟩ := Vmm.vmmMap_spec wf hsmall phys flags
  refine ⟨(Vmm.vmmMap_linked wf hsmall phys flags).1.writes, fun x _ hdata => hkeeps.data x hdata,
    fun a ha => ?_⟩
  rcases hcases with ⟨-, hsame⟩ | ⟨-, -, hother⟩
  · exact hsame a
  · exact hother a (by rw [← not_and_or]; exact ha)

/-- Nor does `vmm_unmap` write to anything else. -/
theorem vmmUnmap_onlyTables (wf : v.WF) (hsmall : v.NoLargePage virt) :
    OnlyTables v virt (vmmUnmap v virt) := by
  obtain ⟨hkeeps, -, hother⟩ := Vmm.vmmUnmap_spec wf hsmall
  refine ⟨(Vmm.vmmUnmap_linked wf hsmall).writes, fun x _ hdata => hkeeps.data x hdata,
    fun a ha => hother a (by rw [← not_and_or]; exact ha)⟩

/-! ## Through a 2 MiB page -/

/-- The entries of a walk that ends at a 2 MiB page. -/
theorem walk_largePage_one (h : v.walk virt = .largePage 1 e) :
    ∃ e₁ e₂, tables v.pmm.mem v.root (virtIndex virt 39) = e₁ ∧
      tables v.pmm.mem (entryFrame e₁) (virtIndex virt 30) = e₂ ∧
      tables v.pmm.mem (entryFrame e₂) (virtIndex virt 21) = e ∧
      entryPresent e₁ = true ∧ entryPresent e₂ = true ∧ entryPresent e = true := by
  unfold Vmm.walk hwWalk at h
  dsimp only at h
  split at h
  · exact absurd h (by simp)
  next h₁ =>
  split at h
  · exact absurd h (by simp)
  split at h
  · exact absurd h (by simp)
  next h₂ =>
  split at h
  · exact absurd h (by simp)
  split at h
  · exact absurd h (by simp)
  next h₃ =>
  split at h
  · injection h with _ he
    have hpresent : ∀ {b : Bool}, ¬ (!b) = true → b = true := fun hb => by simpa using hb
    exact ⟨_, _, rfl, rfl, he, hpresent h₁, hpresent h₂, he ▸ hpresent h₃⟩
  · split at h <;> exact absurd h (by simp)

theorem ensureNextLevel_of_present (ht : t < 2 ^ 40)
    (hpresent : entryPresent (tables v.pmm.mem t i) = true) :
    ensureNextLevel v (frameAddr t) i =
      (some (frameAddr (entryFrame (tables v.pmm.mem t i))), v) := by
  have hread : v.entry (frameAddr t) i = tables v.pmm.mem t i := by
    rw [Vmm.entry, toNat_frameAddr (Nat.lt_trans ht (by decide))]
    rfl
  unfold ensureNextLevel
  simp only [hread, and_ptePresent, and_pteAddrMask, hpresent]
  rw [if_neg (by decide)]

/-- Three present entries lead `vmm_map` to its store, whatever their bit 7. -/
theorem vmmMap_of_present {e₁ e₂ e₃ : Word}
    (h₁ : tables v.pmm.mem v.root (virtIndex virt 39) = e₁)
    (h₂ : tables v.pmm.mem (entryFrame e₁) (virtIndex virt 30) = e₂)
    (h₃ : tables v.pmm.mem (entryFrame e₂) (virtIndex virt 21) = e₃)
    (hp₁ : entryPresent e₁ = true) (hp₂ : entryPresent e₂ = true) (hp₃ : entryPresent e₃ = true)
    (phys : Word) (flags : BitVec 32) : vmmMap v virt phys flags =
      (true, v.setEntry (frameAddr (entryFrame e₃)) (virtIndex virt 12)
        (Vmm.leafEntry phys flags)) := by
  have hroot : v.root < 2 ^ 40 := entryFrame_lt _
  unfold vmmMap
  simp only [pageTableIndices, tableIndex_eq, Vmm.currentPml4_eq]
  rw [ensureNextLevel_of_present hroot (h₁ ▸ hp₁), h₁]
  dsimp only
  rw [ensureNextLevel_of_present (entryFrame_lt _) (h₂ ▸ hp₂), h₂]
  dsimp only
  rw [ensureNextLevel_of_present (entryFrame_lt _) (h₃ ▸ hp₃), h₃]
  rfl

/-- **`vmm_map` stores into a 2 MiB page.** It reports success and writes its
leaf to the frame the page maps. -/
theorem vmmMap_largePage (h : v.walk virt = .largePage 1 e) (phys : Word) (flags : BitVec 32) :
    vmmMap v virt phys flags =
      (true, v.setEntry (frameAddr (entryFrame e)) (virtIndex virt 12)
        (Vmm.leafEntry phys flags)) := by
  obtain ⟨e₁, e₂, h₁, h₂, h₃, hp₁, hp₂, hp₃⟩ := walk_largePage_one h
  exact vmmMap_of_present h₁ h₂ h₃ hp₁ hp₂ hp₃ phys flags

/-- **`vmm_unmap` stores into a 2 MiB page.** -/
theorem vmmUnmap_largePage (h : v.walk virt = .largePage 1 e) :
    vmmUnmap v virt = v.setEntry (frameAddr (entryFrame e)) (virtIndex virt 12) 0 := by
  obtain ⟨e₁, e₂, h₁, h₂, h₃, hp₁, hp₂, hp₃⟩ := walk_largePage_one h
  rw [Vmm.vmmUnmap_eq, h₁, h₂, h₃, hp₁, hp₂, hp₃]
  rfl

/-- Storing an entry into memory in use is no page-table write. -/
theorem not_onlyTables_of_data (wf : v.WF) (ht : t < 2 ^ 40) (hdata : v.Data t) {new : Word}
    (hne : tables v.pmm.mem t i ≠ new) : ¬ OnlyTables v virt (v.setEntry (frameAddr t) i new) := by
  intro honly
  have hmem : ∀ x, ¬ v.Data (x / 4096) →
      (v.setEntry (frameAddr t) i new).pmm.mem x = v.pmm.mem x := by
    refine fun x hx => Vmm.setEntry_mem ht i new (fun heq => hx ?_)
    rw [heq]
    exact hdata
  have hstays := (Vmm.withMem_spec wf hmem).2.2 t hdata
  have hnew := Vmm.setEntry_tables (v := v) ht i new t i
  rw [if_pos ⟨rfl, rfl⟩] at hnew
  -- an entry that changed has a byte that changed
  refine hne ((tables_congr (fun x hlo hhi => ?_) i).symm.trans hnew)
  by_contra hchanged
  have hframe : x / 4096 = t := by omega
  rcases honly.writes x hchanged with htab | hbitmap
  · rw [hframe] at htab
    exact hstays.1 htab
  · rw [hframe] at hbitmap
    exact hdata.2.2 hbitmap

theorem leafEntry_ne (flags : BitVec 32) : Vmm.leafEntry 0 flags ≠ Vmm.leafEntry 0x1000 flags := by
  intro h
  have hframe := congrArg entryFrame h
  have h0 : Vmm.leafEntry 0 flags = frameAddr 0 ||| translateFlags flags := rfl
  have h1 : Vmm.leafEntry 0x1000 flags = frameAddr 1 ||| translateFlags flags := rfl
  rw [h0, h1, entryFrame_leaf (by decide), entryFrame_leaf (by decide)] at hframe
  exact absurd hframe (by decide)

end Calls

/-- **Only tables are written, if no large page is in the way.** On a path
without large pages both calls write to tables and the bitmap only, leave the
memory large pages map alone and change no other page's translation. Where the
path ends at a 2 MiB page of memory in use, `vmm_map` stores into that memory,
whatever its flags. -/
theorem vmm_map_unmap_only_tables {v : Vmm} (wf : v.WF) (virt : Word) :
    (v.NoLargePage virt →
      (∀ phys flags, OnlyTables v virt (vmmMap v virt phys flags).2) ∧
      OnlyTables v virt (vmmUnmap v virt)) ∧
    ∀ e, v.walk virt = .largePage 1 e → v.Data (entryFrame e) →
      ∀ flags, ∃ phys, ¬ OnlyTables v virt (vmmMap v virt phys flags).2 := by
  refine ⟨fun hsmall => ⟨fun phys flags => vmmMap_onlyTables wf hsmall phys flags,
    vmmUnmap_onlyTables wf hsmall⟩, fun e he hdata flags => ?_⟩
  -- two leaves differ, so one of them is not what the memory holds
  by_cases hold : tables v.pmm.mem (entryFrame e) (virtIndex virt 12) = Vmm.leafEntry 0 flags
  · refine ⟨0x1000, ?_⟩
    rw [vmmMap_largePage he]
    exact not_onlyTables_of_data wf (entryFrame_lt e) hdata
      (fun h => leafEntry_ne flags (hold.symm.trans h))
  · refine ⟨0, ?_⟩
    rw [vmmMap_largePage he]
    exact not_onlyTables_of_data wf (entryFrame_lt e) hdata hold

theorem vmm_map_unmap_only_tables_emptyTables :
    OnlyTables emptyTables 0x400000 (vmmMap emptyTables 0x400000 0xabc000 vmmWritable).2 :=
  ((vmm_map_unmap_only_tables emptyTables_wf 0x400000).1
    (Vmm.noLargePage_iff.mpr (.inl (emptyTables_walk _)))).1 _ _

/-! ## A tree with a 2 MiB page -/

/-- The first 2 MiB of the address space are one writable user page, which maps
the memory from frame `0x200` on. That memory is in use. -/
def largeTables : Vmm :=
  (((emptyTables.setEntry (frameAddr 0x100) 0 0x101007).setEntry (frameAddr 0x101) 0 0x102007).setEntry
    (frameAddr 0x102) 0 0x200087).setEntry (frameAddr 0x200) 1 0xaa

theorem largeTables_tables {t : Nat} (ht : 2 ≤ t) (i : Fin 512) :
    tables largeTables.pmm.mem t i =
      if t = 0x200 ∧ i = 1 then 0xaa else if t = 0x102 ∧ i = 0 then 0x200087
      else if t = 0x101 ∧ i = 0 then 0x102007 else if t = 0x100 ∧ i = 0 then 0x101007 else 0 := by
  have hempty : tables emptyTables.pmm.mem t i = 0 := by
    refine tables_zero (fun x hlo hhi => ?_) i
    show (if x = 0x1000 then 0x03 else if x = 0x1001 then 0xfe else 0 : Byte) = 0
    rw [if_neg (by omega), if_neg (by omega)]
  unfold largeTables
  rw [Vmm.setEntry_tables (by decide), Vmm.setEntry_tables (by decide),
    Vmm.setEntry_tables (by decide), Vmm.setEntry_tables (by decide), hempty]

/-- The three tables, with their paths. -/
def largeTables_paths : List (List (Fin 512) × Nat) := [([], 0x100), ([0], 0x101), ([0, 0], 0x102)]

theorem largeTables_next (p : List (Fin 512)) (t : Nat) (hpt : (p, t) ∈ largeTables_paths)
    (i : Fin 512) (u : Nat) (hu : nextTable (tables largeTables.pmm.mem t i) = some u) :
    (p ++ [i], u) ∈ largeTables_paths := by
  have ht : 2 ≤ t ∧ t ≠ 0x200 := by
    simp only [largeTables_paths, List.mem_cons, Prod.mk.injEq, List.not_mem_nil, or_false] at hpt
    omega
  rw [largeTables_tables ht.1, if_neg (fun h => ht.2 h.1)] at hu
  by_cases hi : i = 0
  · subst hi
    simp only [largeTables_paths, List.mem_cons, Prod.mk.injEq, List.not_mem_nil, or_false] at hpt
    rcases hpt with ⟨rfl, rfl⟩ | ⟨rfl, rfl⟩ | ⟨rfl, rfl⟩
    · rw [← Option.some.inj hu]
      decide
    · rw [← Option.some.inj hu]
      decide
    · have hlast : nextTable (0x200087 : Word) = none := by decide
      exact absurd (hlast.symm.trans hu) (by simp)
  · simp [hi, nextTable, entryPresent] at hu

theorem largeTables_tableAt {p : List (Fin 512)} {t : Nat} (h : largeTables.tableAt p = some t) :
    (p, t) ∈ largeTables_paths :=
  tableAt_mem (by decide) largeTables_next h

theorem largeTables_spec : largeTables.WF ∧ largeTables.Data 0x200 := by
  have hoff : ∀ t, 2 ≤ t → ¬ sevenFrames.HoldsBitmap t := by
    intro t ht h
    have hend : sevenFrames.bitmapEnd = 0x1002 := by decide
    unfold Pmm.HoldsBitmap at h
    rw [hend] at h
    omega
  have hok : largeTables.pmm.Ok ∧ largeTables.pmm.freeSet = sevenFrames.freeSet := by
    obtain ⟨hok₁, hfree₁⟩ := Vmm.setEntry_pmm (v := emptyTables) (by decide)
      (hoff 0x100 (by decide)) sevenFrames_ok 0 0x101007
    obtain ⟨hok₂, hfree₂⟩ := Vmm.setEntry_pmm (by decide) (hoff 0x101 (by decide)) hok₁ 0 0x102007
    obtain ⟨hok₃, hfree₃⟩ := Vmm.setEntry_pmm (by decide) (hoff 0x102 (by decide)) hok₂ 0 0x200087
    obtain ⟨hok₄, hfree₄⟩ := Vmm.setEntry_pmm (by decide) (hoff 0x200 (by decide)) hok₃ 1 0xaa
    exact ⟨hok₄, ((hfree₄.trans hfree₃).trans hfree₂).trans hfree₁⟩
  refine ⟨wf_of_tables hok.1 (by decide) (by decide) largeTables_next (by decide) (by decide)
    (fun x hx => hoff x.2 ?_), ?_, ?_, hoff 0x200 (by decide)⟩
  · revert x
    decide
  · rintro ⟨p, -, hp⟩
    have hmem : 0x200 ∈ largeTables_paths.map Prod.snd :=
      List.mem_map_of_mem (largeTables_tableAt hp)
    exact absurd hmem (by decide)
  · intro hmem
    rw [hok.2] at hmem
    exact absurd (Pmm.freeSet_lt hmem) (by decide)

/-- **A store through a large page.** Mapping, and unmapping, the second page
of the 2 MiB page overwrites the memory it maps. -/
theorem vmm_map_overwrites_large_page :
    largeTables.WF ∧ largeTables.walk 0x1000 = .largePage 1 0x200087 ∧ largeTables.Data 0x200 ∧
    (vmmMap largeTables 0x1000 0x5000 vmmWritable).1 = true ∧
    ¬ OnlyTables largeTables 0x1000 (vmmMap largeTables 0x1000 0x5000 vmmWritable).2 ∧
    ¬ OnlyTables largeTables 0x1000 (vmmUnmap largeTables 0x1000) := by
  obtain ⟨hwf, hdata⟩ := largeTables_spec
  have hwalk : largeTables.walk 0x1000 = .largePage 1 0x200087 := by decide
  have hframe : entryFrame 0x200087 = 0x200 := by decide
  have hold : tables largeTables.pmm.mem 0x200 (virtIndex 0x1000 12) = 0xaa :=
    (largeTables_tables (by decide) _).trans (if_pos ⟨rfl, by decide⟩)
  refine ⟨hwf, hwalk, hdata, ?_, ?_, ?_⟩
  · rw [vmmMap_largePage hwalk]
  · rw [vmmMap_largePage hwalk, hframe]
    refine not_onlyTables_of_data hwf (by decide) hdata ?_
    rw [hold]
    decide
  · rw [vmmUnmap_largePage hwalk, hframe]
    refine not_onlyTables_of_data hwf (by decide) hdata ?_
    rw [hold]
    decide

end QuinKernel
