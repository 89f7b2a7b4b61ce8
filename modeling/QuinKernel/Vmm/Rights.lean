import QuinKernel.Vmm.LargePages

/-!
# Effective access rights

The processor combines the rights of all the entries it walks through, so a
leaf's flags are what governs a page only if every entry above it gives every
right. `Vmm.Permissive` says so of the entries that link to tables;
`ensure_next_level` creates no others, and no call changes one that is there.
Hence the rights of a page are those its last `vmm_map` asked for, as long as
no large page stands in its way (`vmm_map_rights`).
-/

namespace QuinKernel

open Machine RadixTree

namespace Vmm

/-- Every entry that links to a table allows writes and user mode, and forbids
no execution. -/
def Permissive (v : Vmm) : Prop :=
  ∀ p i t, p.length < 3 → v.tableAt p = some t →
    (nextTable (tables v.pmm.mem t i)).isSome = true →
    entryWritable (tables v.pmm.mem t i) = true ∧ entryUser (tables v.pmm.mem t i) = true ∧
      entryNoExecute (tables v.pmm.mem t i) = false

/-- The processor's rights for `virt`. -/
def rights (v : Vmm) (virt : Word) : Rights := hwRights v.pmm.mem v.cr3 virt

section Permissive

variable {v v' : Vmm} {t f : Nat} {virt e : Word} {p : List (Fin 512)} {i j : Fin 512}

/-- Under permissive upper levels the leaf decides. -/
theorem Permissive.rights_of_leaf (hperm : v.Permissive) (h : v.walk virt = .leaf e) :
    v.rights virt = ⟨entryWritable e, entryUser e, entryNoExecute e⟩ := by
  obtain ⟨t, ht, he⟩ := exists_table_of_leaf h
  obtain ⟨es, htrail, hread⟩ := trail_of_descend (j := virtIndex virt 12) ht
  unfold rights hwRights walkEntries
  rw [show entryFrame v.cr3 = v.root from rfl, htrail, he]
  refine Rights.ofEntries_append e (fun d hd => ?_)
  obtain ⟨p₁, i, p₂, u, hsplit, hu, rfl, hlink⟩ := hread d hd
  refine hperm p₁ i u ?_ hu hlink
  have hlen := congrArg List.length hsplit
  rw [List.length_append, List.length_cons, show (upperIndices virt).length = 3 from rfl] at hlen
  omega

/-- The entries `ensure_next_level` writes give every right. -/
theorem linkEntry_permissive (hf : f < 2 ^ 40) : entryWritable (linkEntry f) = true ∧
    entryUser (linkEntry f) = true ∧ entryNoExecute (linkEntry f) = false := by
  have hor : linkEntry f = frameAddr f ||| 7 := by
    unfold linkEntry
    rw [BitVec.or_assoc, BitVec.or_assoc]
    rfl
  have hval : (frameAddr f ||| (7 : Word)).toNat = f * 4096 + 7 :=
    toNat_frameAddr_or (by omega) (by decide)
  rw [hor]
  simp only [entryWritable, entryUser, entryNoExecute, BitVec.getLsbD, hval,
    Nat.testBit_eq_decide_div_mod_eq, decide_eq_true_eq, decide_eq_false_iff_not]
  omega

/-- Writing a leaf changes no entry of an upper table. -/
theorem Permissive.leafWrite (hperm : v.Permissive) (wf : v.WF) (hp : p.length = 3)
    (ht : v.tableAt p = some t) (j : Fin 512) (e : Word) :
    (v.setEntry (frameAddr t) j e).Permissive := by
  intro q k u hq hu hlink
  have hwrite := leafWrite_write hp ht j e
  have hold : v.tableAt q = some u := (hwrite.descend wf.tree (Nat.le_of_lt hq)).symm.trans hu
  have hne : u ≠ t := by
    rintro rfl
    have := wf.tree q p u (by omega) (by omega) hold ht
    rw [this, hp] at hq
    omega
  rw [setEntry_tables (Table.lt ⟨p, by omega, ht⟩), if_neg (fun h => hne h.1)] at hlink ⊢
  exact hperm q k u hq hold hlink

/-- Linking a table adds an entry that gives every right. -/
theorem Permissive.linkTable (hperm : v.Permissive) (wf : v.WF) {q : Pmm} (h : AllocOk v.pmm f q)
    (hp : p.length < 3) (ht : v.tableAt p = some t)
    (hempty : entryPresent (tables v.pmm.mem t i) = false) :
    ((v.withPmm q).setEntry (frameAddr t) i (linkEntry f)).Permissive := by
  intro r k u hr hu hlink
  have hf40 := alloc_lt wf h
  have hkeep := alloc_keepsTables wf h
  obtain ⟨hnew, hzero⟩ := linkTable_link wf h hp ht hempty (nextTable_linkEntry hf40)
  rcases hnew.descend_cases (alloc_keeps wf h).wf.tree (Nat.le_of_lt hr) hu with ⟨-, rfl⟩ | hold
  · -- the new table is empty
    rw [hzero] at hlink
    exact absurd hlink (by decide)
  · rw [hkeep.descend (Nat.le_of_lt hr)] at hold
    rw [setEntry_tables (Table.lt ⟨p, by omega, ht⟩)] at hlink ⊢
    split at hlink
    · next hwritten =>
      rw [if_pos hwritten]
      exact linkEntry_permissive hf40
    · next hother =>
      rw [if_neg hother]
      rw [show tables (v.withPmm q).pmm.mem u k = tables v.pmm.mem u k from
        hkeep u ⟨r, by omega, hold⟩ k] at hlink ⊢
      exact hperm r k u hr hold hlink

theorem Makes.permissive (h : v.Makes v') (wf : v.WF) (hperm : v.Permissive) : v'.Permissive := by
  induction h with
  | refl => exact hperm
  | step h hp ht hsmall ih =>
      have hwf := (h.keeps wf).wf
      rcases ensureNextLevel_cases hwf ⟨_, by omega, ht⟩ _ with
        ⟨-, hcall⟩ | ⟨hempty, ⟨-, hcall⟩ | ⟨f, q, hok, hcall⟩⟩
      · rw [hcall]
        exact ih
      · rw [hcall]
        exact ih
      · rw [hcall]
        exact ih.linkTable hwf hok hp ht hempty

theorem Permissive.vmmMap (hperm : v.Permissive) (wf : v.WF) (hlarge : v.NoLargePage virt)
    (phys : Word) (flags : BitVec 32) : (vmmMap v virt phys flags).2.Permissive := by
  obtain ⟨v₁, hmakes, -, ⟨hcall, -⟩ | ⟨t, ht, hcall⟩⟩ := vmmMap_makes wf hlarge phys flags
  · rw [hcall]
    exact hmakes.permissive wf hperm
  · rw [hcall]
    exact (hmakes.permissive wf hperm).leafWrite (hmakes.keeps wf).wf rfl ht _ _

theorem Permissive.vmmUnmap (hperm : v.Permissive) (wf : v.WF) (hlarge : v.NoLargePage virt) :
    (vmmUnmap v virt).Permissive := by
  rcases vmmUnmap_cases hlarge with ⟨hcall, -⟩ | ⟨t, ht, hcall⟩
  · rw [hcall]
    exact hperm
  · rw [hcall]
    exact hperm.leafWrite wf rfl ht _ _

end Permissive

end Vmm

/-! ## What the flags ask for -/

/-- The rights the `VMM_*` flags ask for. -/
def requestedRights (flags : BitVec 32) : Rights :=
  ⟨decide (flags &&& vmmWritable ≠ 0), decide (flags &&& vmmUser ≠ 0),
   decide (flags &&& vmmNoExecute ≠ 0)⟩

/-- `translate_flags` sets the bit of each flag. -/
theorem translateFlags_bits (flags : BitVec 32) :
    (translateFlags flags).getLsbD 1 = decide (flags &&& vmmWritable ≠ 0) ∧
    (translateFlags flags).getLsbD 2 = decide (flags &&& vmmUser ≠ 0) ∧
    (translateFlags flags).getLsbD 4 = decide (flags &&& vmmNoCache ≠ 0) ∧
    (translateFlags flags).getLsbD 63 = decide (flags &&& vmmNoExecute ≠ 0) := by
  have hbit : ∀ (e bit : Word) (k : Nat) (c : Prop) [Decidable c],
      (if c then e ||| bit else e).getLsbD k = (e.getLsbD k || decide c && bit.getLsbD k) := by
    intro e bit k c _
    by_cases hc : c
    · rw [if_pos hc, BitVec.getLsbD_or, decide_eq_true hc, Bool.true_and]
    · rw [if_neg hc, decide_eq_false hc, Bool.false_and, Bool.or_false]
  unfold translateFlags
  simp only [hbit]
  simp [ptePresent, pteWritable, pteUser, pteCacheDisable, pteNoExecute]

/-- Outside the address field a leaf holds the flags. -/
theorem leafEntry_getLsbD (phys : Word) (flags : BitVec 32) {k : Nat}
    (hk : pteAddrMask.getLsbD k = false) :
    (Vmm.leafEntry phys flags).getLsbD k = (translateFlags flags).getLsbD k := by
  rw [Vmm.leafEntry, BitVec.getLsbD_or, BitVec.getLsbD_and, hk, Bool.and_false, Bool.false_or]

theorem leafEntry_rights (phys : Word) (flags : BitVec 32) :
    (⟨entryWritable (Vmm.leafEntry phys flags), entryUser (Vmm.leafEntry phys flags),
      entryNoExecute (Vmm.leafEntry phys flags)⟩ : Rights) = requestedRights flags ∧
    entryCacheDisable (Vmm.leafEntry phys flags) = decide (flags &&& vmmNoCache ≠ 0) := by
  obtain ⟨hwritable, huser, hcache, hexecute⟩ := translateFlags_bits flags
  simp only [entryWritable, entryUser, entryNoExecute, entryCacheDisable,
    leafEntry_getLsbD phys flags (show pteAddrMask.getLsbD 1 = false by decide),
    leafEntry_getLsbD phys flags (show pteAddrMask.getLsbD 2 = false by decide),
    leafEntry_getLsbD phys flags (show pteAddrMask.getLsbD 4 = false by decide),
    leafEntry_getLsbD phys flags (show pteAddrMask.getLsbD 63 = false by decide), hwritable, huser,
    hcache, hexecute]
  exact ⟨rfl, trivial⟩

/-! ## Runs -/

/-- `vmm_map` and `vmm_unmap` of any addresses in any order. The label records
the operation and whether it succeeded. -/
def mapSystem (v₀ : Vmm) : System Vmm (PageOp × Bool) where
  init v := v = v₀
  step v e v' := e.1.perform v = (e.2, v')

theorem mapSystem_map (v₀ : Vmm) {v : Vmm} {virt phys : Word} {flags : BitVec 32}
    (hok : (vmmMap v virt phys flags).1 = true) :
    (mapSystem v₀).step v (.map virt phys flags, true) (vmmMap v virt phys flags).2 :=
  Prod.ext hok rfl

/-- The last operation that took effect on the page of `a`, after `before`. -/
def lastOp (a : Word) (es : List (PageOp × Bool)) (before : Option PageOp) : Option PageOp :=
  es.foldl (fun last e => if e.2 = true ∧ sameIndices a e.1.virt then some e.1 else last) before

theorem lastOp_single {a : Word} {op : PageOp} (h : sameIndices a op.virt) :
    lastOp a [(op, true)] none = some op := by
  show (if true = true ∧ sameIndices a op.virt then some op else none) = some op
  exact if_pos ⟨rfl, h⟩

/-- A run through no large page keeps the tree well-formed and permissive, and
leaves each page what the last operation on it made of it. -/
theorem mapSystem_run {v₀ v v' : Vmm} {es : List (PageOp × Bool)}
    (hrun : ((mapSystem v₀).restrict (fun v e => v.NoLargePage e.1.virt)).Run v es v') (wf : v.WF)
    (hperm : v.Permissive) : v'.WF ∧ v'.Permissive ∧
      ∀ a before, (∀ op, before = some op → v.walk a = op.result) →
        ∀ op, lastOp a es before = some op → v'.walk a = op.result := by
  induction hrun with
  | nil => exact ⟨wf, hperm, fun _ _ h => h⟩
  | @cons v v₁ v' e es hstep _ ih =>
      obtain ⟨op, ok⟩ := e
      obtain ⟨hsmall, hperform⟩ := hstep
      dsimp only at hsmall hperform
      have hkeeps := PageOp.perform_keeps wf hsmall
      have hindices := PageOp.perform_indices wf hsmall
      have hperm₁ : (op.perform v).2.Permissive := by
        cases op with
        | map virt phys flags => exact hperm.vmmMap wf hsmall phys flags
        | unmap virt => exact hperm.vmmUnmap wf hsmall
      rw [hperform] at hkeeps hindices hperm₁
      obtain ⟨wf', hperm', hlast⟩ := ih hkeeps.wf hperm₁
      refine ⟨wf', hperm', fun a before hbefore => hlast a _ (fun op' hop => ?_)⟩
      rw [hindices a]
      dsimp only at hop ⊢
      split at hop
      · next heffect =>
        rw [if_pos heffect, Option.some.inj hop]
      · next hother =>
        rw [if_neg hother]
        exact hbefore op' hop

/-- **The last `vmm_map` of a page decides its rights.** From tables whose
upper entries give every right, after any sequence of the two calls that goes
through no large page: the upper entries still give every right, and a page
that `vmm_map` mapped last has the rights, and the caching, its flags ask for. -/
theorem vmm_map_rights {v₀ v : Vmm} (wf : v₀.WF) (hperm : v₀.Permissive)
    {es : List (PageOp × Bool)}
    (hrun : ((mapSystem v₀).restrict (fun v e => v.NoLargePage e.1.virt)).Run v₀ es v) :
    v.Permissive ∧ ∀ a virt phys flags, lastOp a es none = some (.map virt phys flags) →
      v.rights a = requestedRights flags ∧
      ∃ e, v.walk a = .leaf e ∧ entryCacheDisable e = decide (flags &&& vmmNoCache ≠ 0) := by
  obtain ⟨-, hperm', hlast⟩ := mapSystem_run hrun wf hperm
  refine ⟨hperm', fun a virt phys flags hmap => ?_⟩
  have hleaf : v.walk a = .leaf (Vmm.leafEntry phys flags) :=
    hlast a none (fun _ h => absurd h (by simp)) _ hmap
  obtain ⟨hrights, hcache⟩ := leafEntry_rights phys flags
  exact ⟨(hperm'.rights_of_leaf hleaf).trans hrights, _, hleaf, hcache⟩

/-- Mapping one page of the empty address space, writable and for user mode. -/
theorem vmm_map_rights_emptyTables :
    ∃ v, (mapSystem emptyTables).Run emptyTables
        [(.map 0x400000 0xabc000 (vmmWritable ||| vmmUser), true)] v ∧
      v.rights 0x400000 = ⟨true, true, false⟩ := by
  have hsmall : emptyTables.NoLargePage 0x400000 :=
    Vmm.noLargePage_iff.mpr (.inl (emptyTables_walk _))
  have hperm : emptyTables.Permissive := by
    intro p i t _ ht hlink
    have hnone := emptyRoot_next emptyTables_root
    have hmem := tableAt_mem (l := [([], emptyTables.root)]) (by simp)
      (fun p t hpt i u hu => by rw [hnone p t hpt i] at hu; exact absurd hu (by simp)) ht
    rw [hnone p t hmem i] at hlink
    exact absurd hlink (by simp)
  have hok : (vmmMap emptyTables 0x400000 0xabc000 (vmmWritable ||| vmmUser)).1 = true := by
    refine (Vmm.vmmMap_linked emptyTables_wf hsmall _ _).2.mpr ?_
    have hcard : emptyTables.pmm.freeSet.card = 7 := sevenFrames_ok.count.symm
    rw [hcard]
    decide
  have hstep := mapSystem_map emptyTables hok
  have hrun : ((mapSystem emptyTables).restrict (fun v e => v.NoLargePage e.1.virt)).Run emptyTables
      [(.map 0x400000 0xabc000 (vmmWritable ||| vmmUser), true)] _ := .single ⟨hsmall, hstep⟩
  have h := vmm_map_rights emptyTables_wf hperm hrun
  exact ⟨_, .single hstep, (h.2 0x400000 _ _ _ (lastOp_single (by decide))).1⟩

/-- **A mapping without its rights.** Mapping the second page of a writable 2 MiB
user page read-only and for the kernel succeeds, and leaves the page writable
and open to user mode. -/
theorem vmm_map_rights_ignored :
    largeTables.WF ∧ largeTables.Permissive ∧
    ∃ v, (mapSystem largeTables).Run largeTables [(.map 0x1000 0x5000 0, true)] v ∧
      lastOp 0x1000 [(.map 0x1000 0x5000 0, true)] none = some (.map 0x1000 0x5000 0) ∧
      requestedRights 0 = ⟨false, false, false⟩ ∧ v.rights 0x1000 = ⟨true, true, false⟩ := by
  have hwalk : largeTables.walk 0x1000 = .largePage 1 0x200087 := by decide
  have hstep : (mapSystem largeTables).step largeTables (.map 0x1000 0x5000 0, true)
      (largeTables.setEntry (frameAddr (entryFrame 0x200087)) (virtIndex 0x1000 12)
        (Vmm.leafEntry 0x5000 0)) := vmmMap_largePage hwalk 0x5000 0
  refine ⟨largeTables_spec.1, ?_, _, .single hstep, lastOp_single (by decide), by decide,
    by decide⟩
  intro p i t _ ht hlink
  have hmem := largeTables_tableAt ht
  simp only [largeTables_paths, List.mem_cons, Prod.mk.injEq, List.not_mem_nil, or_false] at hmem
  rw [largeTables_tables (by omega)] at hlink ⊢
  by_cases hi : i = 0
  · subst hi
    rcases hmem with ⟨-, rfl⟩ | ⟨-, rfl⟩ | ⟨-, rfl⟩
    · decide
    · decide
    · exact absurd hlink (by decide)
  · rw [if_neg (by omega), if_neg (by simp [hi]), if_neg (by simp [hi]), if_neg (by simp [hi])]
      at hlink
    exact absurd hlink (by decide)

end QuinKernel
