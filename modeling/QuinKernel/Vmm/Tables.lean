import QuinKernel.Vmm.Tree

/-!
# Updates of the page-table tree

The two memory updates the paging code makes are `leafWrite` (an entry of a
bottom table) and `linkTable` (a fresh frame under an entry that was not
present). `ensure_next_level` is the second or nothing, so it changes no
translation (`ensureNextLevel_spec`).

`Linked` is what becomes of the frames: no table is lost, and a frame that is
no longer free is a table (`ensureNextLevel_linked`).
-/

namespace QuinKernel

open Machine RadixTree

namespace Vmm

variable {v v' v'' : Vmm} {t f : Nat} {virt a : Word} {p r : List (Fin 512)} {i j : Fin 512}

/-! ## Composing operations -/

/-- Only the memory manager's state and CR3 matter to the tables. -/
theorem WF.congr (wf : v.WF) (hpmm : v'.pmm = v.pmm) (hcr3 : v'.cr3 = v.cr3) : v'.WF := by
  obtain ⟨pmm, cr3, _, _, _⟩ := v
  obtain ⟨pmm', cr3', _, _, _⟩ := v'
  obtain rfl : pmm' = pmm := hpmm
  obtain rfl : cr3' = cr3 := hcr3
  exact ⟨wf.pmm, wf.physical, wf.tree, wf.notFree, wf.offBitmap⟩

theorem walk_congr (hpmm : v'.pmm = v.pmm) (hcr3 : v'.cr3 = v.cr3) (a : Word) :
    v'.walk a = v.walk a := by
  unfold walk
  rw [hpmm, hcr3]

theorem Keeps.refl (wf : v.WF) : v.Keeps v :=
  ⟨wf, rfl, rfl, rfl, Finset.Subset.refl _, fun _ h => .inl h, fun _ _ => rfl⟩

theorem holdsBitmap_congr {q q' : Pmm} (hbm : q'.bitmap = q.bitmap)
    (hfc : q'.frameCount = q.frameCount) : q'.HoldsBitmap f ↔ q.HoldsBitmap f := by
  simp only [Pmm.HoldsBitmap, Pmm.bitmapEnd, hbm, hfc]

/-- Data frames stay data frames. -/
theorem Keeps.dataStays (h : v.Keeps v') (hf : v.Data f) : v'.Data f := by
  refine ⟨fun ht => ?_, fun hfree => hf.2.1 (h.freeSet hfree), ?_⟩
  · rcases h.newTable f ht with hold | hfree
    · exact hf.1 hold
    · exact hf.2.1 hfree
  · rw [holdsBitmap_congr h.bitmap h.frameCount]
    exact hf.2.2

theorem Keeps.trans (h : v.Keeps v') (h' : v'.Keeps v'') : v.Keeps v'' := by
  refine ⟨h'.wf, ?_, h'.bitmap.trans h.bitmap, h'.frameCount.trans h.frameCount,
    h'.freeSet.trans h.freeSet, fun t ht => ?_, fun x hx => ?_⟩
  · rw [h'.statics, h.statics]
    rfl
  · rcases h'.newTable t ht with hold | hfree
    · exact h.newTable t hold
    · exact .inr (h.freeSet hfree)
  · rw [h'.data x (h.dataStays hx), h.data x hx]

/-- Stores into data frames touch neither tables nor the frame allocator. -/
theorem withMem_spec (wf : v.WF) {m : Mem} (hm : ∀ x, ¬ v.Data (x / 4096) → m x = v.pmm.mem x) :
    (v.withPmm (v.pmm.withMem m)).WF ∧
    (∀ a, (v.withPmm (v.pmm.withMem m)).walk a = v.walk a) ∧
    ∀ f, v.Data f → (v.withPmm (v.pmm.withMem m)).Data f := by
  have hkeep : RadixTree.Keeps nextTable 3 v.root (tables v.pmm.mem) (tables m) := by
    intro t ht
    refine tables_congr (fun x hlo hhi => hm x (fun hd => hd.1 ?_))
    rw [show x / 4096 = t by omega]
    exact ht
  have hbitmap : ∀ x, v.pmm.bitmap.toNat ≤ x → x < v.pmm.bitmapEnd → m x = v.pmm.mem x := by
    refine fun x hlo hhi => hm x (fun hd => hd.2.2 ?_)
    unfold Pmm.HoldsBitmap
    omega
  have hfree : (v.pmm.withMem m).freeSet = v.pmm.freeSet := Pmm.freeSet_congr rfl rfl hbitmap
  have htable : ∀ t, (v.withPmm (v.pmm.withMem m)).Table t ↔ v.Table t := fun t => hkeep.isTable
  refine ⟨⟨wf.pmm.congr rfl rfl rfl hbitmap, wf.physical, hkeep.isTree wf.tree, ?_, ?_⟩, ?_, ?_⟩
  · intro t ht
    change t ∉ (v.pmm.withMem m).freeSet
    rw [hfree]
    exact wf.notFree t ((htable t).mp ht)
  · exact fun t ht => wf.offBitmap t ((htable t).mp ht)
  · intro a
    rw [walk_eq, walk_eq]
    exact congrArg classify (hkeep.probe (Nat.le_refl 3))
  · rintro f ⟨htab, hf, hoff⟩
    refine ⟨fun ht => htab ((htable f).mp ht), ?_, hoff⟩
    change f ∉ (v.pmm.withMem m).freeSet
    rw [hfree]
    exact hf

/-! ## Taking a frame -/

/-- Allocating a frame touches no table. -/
theorem alloc_keepsTables (wf : v.WF) {q : Pmm} (h : AllocOk v.pmm f q) :
    RadixTree.Keeps nextTable 3 v.root (tables v.pmm.mem) (tables q.mem) := by
  intro t ht
  have hne : t ≠ f := fun heq => wf.notFree t ht (heq ▸ h.wasFree)
  have hoff := wf.offBitmap t ht
  refine tables_congr (fun x hlo hhi => h.frame x ?_ ?_)
  · omega
  · unfold Pmm.HoldsBitmap at hoff
    omega

theorem alloc_keeps (wf : v.WF) {q : Pmm} (h : AllocOk v.pmm f q) : v.Keeps (v.withPmm q) := by
  have hkeep := alloc_keepsTables wf h
  have htable : ∀ t, (v.withPmm q).Table t ↔ v.Table t := fun t => hkeep.isTable
  have hsub : q.freeSet ⊆ v.pmm.freeSet := by
    rw [h.freeSet]
    exact Finset.erase_subset _ _
  refine ⟨⟨h.ok, ?_, hkeep.isTree wf.tree, ?_, ?_⟩, rfl, h.bitmap, h.frameCount, hsub,
    fun t ht => .inl ((htable t).mp ht), ?_⟩
  · change q.frameCount.toNat ≤ _
    rw [h.frameCount]
    exact wf.physical
  · exact fun t ht hfree => wf.notFree t ((htable t).mp ht) (hsub hfree)
  · intro t ht
    change ¬ q.HoldsBitmap t
    rw [holdsBitmap_congr h.bitmap h.frameCount]
    exact wf.offBitmap t ((htable t).mp ht)
  · rintro x ⟨_, hfree, hoff⟩
    have hne : x / 4096 ≠ f := fun heq => hfree (heq ▸ h.wasFree)
    refine h.frame x (by omega) ?_
    unfold Pmm.HoldsBitmap at hoff
    omega

theorem alloc_walk (wf : v.WF) {q : Pmm} (h : AllocOk v.pmm f q) (a : Word) :
    (v.withPmm q).walk a = v.walk a := by
  rw [walk_eq, walk_eq]
  exact congrArg classify ((alloc_keepsTables wf h).probe (Nat.le_refl 3))

/-- An allocated frame is data until the caller makes something else of it. -/
theorem alloc_data (wf : v.WF) {q : Pmm} (h : AllocOk v.pmm f q) : (v.withPmm q).Data f := by
  refine ⟨fun ht => ?_, ?_, ?_⟩
  · exact wf.notFree f ((alloc_keepsTables wf h).isTable.mp ht) h.wasFree
  · change f ∉ q.freeSet
    rw [h.freeSet]
    exact Finset.notMem_erase _ _
  · change ¬ q.HoldsBitmap f
    have hoff := wf.pmm.offBitmap f h.wasFree
    rw [holdsBitmap_congr h.bitmap h.frameCount]
    unfold Pmm.HoldsBitmap
    omega

theorem alloc_lt (wf : v.WF) {q : Pmm} (h : AllocOk v.pmm f q) : f < 2 ^ 40 :=
  Nat.lt_of_lt_of_le (Pmm.freeSet_lt h.wasFree) wf.physical

/-- Asking for a frame: there is none, or one is taken and its address is not 0. -/
theorem alloc_cases (wf : v.WF) :
    (v.pmm.freeSet = ∅ ∧ pmmAllocFrame v.pmm = (0, v.pmm)) ∨
    ∃ f q, pmmAllocFrame v.pmm = (frameAddr f, q) ∧ frameAddr f ≠ 0 ∧ AllocOk v.pmm f q := by
  rcases Pmm.pmmAllocFrame_cases wf.pmm with hnone | ⟨f, hphys, hok⟩
  · exact .inl hnone
  · have hf0 : f ≠ 0 := fun hz => wf.pmm.nonzero (hz ▸ hok.wasFree)
    exact .inr ⟨f, _, Prod.ext hphys rfl, frameAddr_ne_zero hf0 (alloc_lt wf hok), hok⟩

/-! ## Storing an entry -/

theorem setEntry_tables (ht : t < 2 ^ 40) (i : Fin 512) (e : Word) (u : Nat) (k : Fin 512) :
    tables (v.setEntry (frameAddr t) i e).pmm.mem u k =
      if u = t ∧ k = i then e else tables v.pmm.mem u k := by
  rw [← tables_store64, ← toNat_frameAddr (Nat.lt_trans ht (by decide))]
  rfl

theorem setEntry_mem (ht : t < 2 ^ 40) (i : Fin 512) (e : Word) {x : Nat} (hx : x / 4096 ≠ t) :
    (v.setEntry (frameAddr t) i e).pmm.mem x = v.pmm.mem x := by
  have hi := i.isLt
  have haddr := toNat_frameAddr (Nat.lt_trans ht (show 2 ^ 40 < 2 ^ 52 by decide))
  refine store64_other _ _ ?_
  rw [haddr]
  omega

/-- Storing into a frame off the bitmap keeps the frame allocator's view. -/
theorem setEntry_pmm (ht : t < 2 ^ 40) (hoff : ¬ v.pmm.HoldsBitmap t) (hok : v.pmm.Ok)
    (i : Fin 512) (e : Word) :
    (v.setEntry (frameAddr t) i e).pmm.Ok ∧
    (v.setEntry (frameAddr t) i e).pmm.freeSet = v.pmm.freeSet := by
  have hmem : ∀ x, v.pmm.bitmap.toNat ≤ x → x < v.pmm.bitmapEnd →
      (v.setEntry (frameAddr t) i e).pmm.mem x = v.pmm.mem x := by
    intro x hlo hhi
    refine setEntry_mem ht i e (fun hx => hoff ?_)
    unfold Pmm.HoldsBitmap
    omega
  exact ⟨hok.congr rfl rfl rfl hmem, Pmm.freeSet_congr rfl rfl hmem⟩

/-- A store into a bottom table, on the tree. -/
theorem leafWrite_write (hp : p.length = 3) (ht : v.tableAt p = some t) (j : Fin 512) (e : Word) :
    Write nextTable 3 v.root p j e (tables v.pmm.mem)
      (tables (v.setEntry (frameAddr t) j e).pmm.mem) := by
  have ht40 : t < 2 ^ 40 := Table.lt ⟨p, by omega, ht⟩
  have hentry := setEntry_tables (v := v) ht40 j e
  refine ⟨hp, t, ht, by rw [hentry, if_pos ⟨rfl, rfl⟩], fun u k _ hne => ?_⟩
  rw [hentry, if_neg (by rw [not_and_or]; exact hne)]

/-- Writing an entry of a bottom table. -/
theorem leafWrite (wf : v.WF) (hp : p.length = 3) (ht : v.tableAt p = some t) (j : Fin 512)
    (e : Word) :
    v.Keeps (v.setEntry (frameAddr t) j e) ∧
    (∀ a, upperIndices a = p → virtIndex a 12 = j →
      (v.setEntry (frameAddr t) j e).walk a = classify (e, 0)) ∧
    (∀ a, (upperIndices a ≠ p ∨ virtIndex a 12 ≠ j) →
      (v.setEntry (frameAddr t) j e).walk a = v.walk a) := by
  have htab : v.Table t := ⟨p, by omega, ht⟩
  have ht40 := htab.lt
  have hwrite := leafWrite_write hp ht j e
  set v' := v.setEntry (frameAddr t) j e with hv'
  obtain ⟨hok, hfree⟩ := setEntry_pmm ht40 (wf.offBitmap t htab) wf.pmm j e
  have htable : ∀ u, v'.Table u ↔ v.Table u := fun u => hwrite.isTable wf.tree
  refine ⟨⟨⟨hok, wf.physical, hwrite.isTree wf.tree, ?_, ?_⟩, rfl, rfl, rfl, ?_, ?_, ?_⟩, ?_, ?_⟩
  · intro u hu
    rw [hfree]
    exact wf.notFree u ((htable u).mp hu)
  · exact fun u hu => wf.offBitmap u ((htable u).mp hu)
  · rw [hfree]
  · exact fun u hu => .inl ((htable u).mp hu)
  · exact fun x hx => setEntry_mem ht40 j e (fun heq => hx.1 (heq ▸ htab))
  · rintro a rfl rfl
    rw [walk_eq]
    exact congrArg classify (hwrite.probe_self wf.tree)
  · intro a hne
    rw [walk_eq, walk_eq]
    exact congrArg classify (hwrite.probe_other wf.tree rfl hne)

/-- Linking a freshly allocated frame, on the tree. -/
theorem linkTable_link (wf : v.WF) {q : Pmm} (h : AllocOk v.pmm f q) (hp : p.length < 3)
    (ht : v.tableAt p = some t) (hempty : entryPresent (tables v.pmm.mem t i) = false) {e : Word}
    (he : nextTable e = some f) :
    Link nextTable 3 v.root p i f (tables q.mem)
      (tables ((v.withPmm q).setEntry (frameAddr t) i e).pmm.mem) ∧
    ∀ k, tables ((v.withPmm q).setEntry (frameAddr t) i e).pmm.mem f k = 0 := by
  have htab : v.Table t := ⟨p, by omega, ht⟩
  have hkeep := alloc_keepsTables wf h
  have hentry := setEntry_tables (v := v.withPmm q) htab.lt i e
  have hne : f ≠ t := fun heq => wf.notFree t htab (heq ▸ h.wasFree)
  have hzero : ∀ k, tables ((v.withPmm q).setEntry (frameAddr t) i e).pmm.mem f k = 0 := by
    intro k
    rw [hentry, if_neg (by simp [hne])]
    exact tables_zero h.zeroed k
  refine ⟨⟨hp, (alloc_data wf h).1, fun k => ?_, t, ?_, ?_, ?_, fun u k _ hu => ?_⟩, hzero⟩
  · rw [hzero]
    rfl
  · rw [hkeep.descend (Nat.le_of_lt hp)]
    exact ht
  · rw [hkeep t htab, nextTable, hempty]
    rfl
  · rw [hentry, if_pos ⟨rfl, rfl⟩]
    exact he
  · rw [hentry, if_neg (by rw [not_and_or]; exact hu)]
    rfl

/-- Linking a freshly allocated frame under an entry that was not present. -/
theorem linkTable (wf : v.WF) {q : Pmm} (h : AllocOk v.pmm f q) (hp : p.length < 3)
    (ht : v.tableAt p = some t) (hempty : entryPresent (tables v.pmm.mem t i) = false) {e : Word}
    (he : nextTable e = some f) :
    v.Keeps ((v.withPmm q).setEntry (frameAddr t) i e) ∧
    ((v.withPmm q).setEntry (frameAddr t) i e).tableAt (p ++ [i]) = some f ∧
    ∀ a, ((v.withPmm q).setEntry (frameAddr t) i e).walk a = v.walk a := by
  have htab : v.Table t := ⟨p, by omega, ht⟩
  have ht40 := htab.lt
  have hkeep := alloc_keepsTables wf h
  have hallocated := alloc_keeps wf h
  have hdata := alloc_data wf h
  have hpmm := setEntry_pmm (v := v.withPmm q) ht40
    (hallocated.wf.offBitmap t (hkeep.isTable.mpr htab)) hallocated.wf.pmm i e
  have hmem : ∀ x, x / 4096 ≠ t →
      ((v.withPmm q).setEntry (frameAddr t) i e).pmm.mem x = q.mem x :=
    fun x hx => setEntry_mem (v := v.withPmm q) ht40 i e hx
  obtain ⟨hlink, hzero⟩ := linkTable_link wf h hp ht hempty he
  have htree := hallocated.wf.tree
  set v₂ := (v.withPmm q).setEntry (frameAddr t) i e with hv₂
  -- linking adds the allocated frame to the tables and no other
  have htable : ∀ u, v₂.Table u → u = f ∨ v.Table u := by
    intro u hu
    rcases hlink.isTable htree hu with rfl | hold
    · exact .inl rfl
    · exact .inr (hkeep.isTable.mp hold)
  refine ⟨⟨⟨hpmm.1, hallocated.wf.physical, hlink.isTree htree, ?_, ?_⟩, rfl, h.bitmap,
    h.frameCount, ?_, ?_, ?_⟩, hlink.descend_self htree, fun a => ?_⟩
  · intro u hu
    rw [hpmm.2]
    rcases htable u hu with rfl | hold
    · exact hdata.2.1
    · exact hallocated.wf.notFree u (hkeep.isTable.mpr hold)
  · intro u hu
    rcases htable u hu with rfl | hold
    · exact hdata.2.2
    · exact hallocated.wf.offBitmap u (hkeep.isTable.mpr hold)
  · rw [hpmm.2]
    exact hallocated.freeSet
  · intro u hu
    rcases htable u hu with rfl | hold
    · exact .inr h.wasFree
    · exact .inl hold
  · intro x hx
    rw [hmem x (fun heq => hx.1 (heq ▸ htab))]
    exact hallocated.data x hx
  · rw [← alloc_walk wf h, walk_eq, walk_eq]
    by_cases hpre : p ++ [i] <+: upperIndices a
    · -- the walk stopped at the entry, and now stops in the empty table
      obtain ⟨r, hr⟩ := hpre
      rw [← hr, List.append_assoc, List.singleton_append]
      obtain ⟨⟨u, hu, hbefore⟩, k, m, hafter⟩ :=
        hlink.probe_below (r := r) (j := virtIndex a 12) htree
      rw [hkeep.descend (Nat.le_of_lt hp)] at hu
      obtain rfl : u = t := Option.some.inj (hu.symm.trans ht)
      have hbelow : entryPresent (tables v₂.pmm.mem f k) = false := by
        rw [hzero]
        rfl
      refine (congrArg classify hafter).trans (Eq.trans ?_ (congrArg classify hbefore).symm)
      rw [classify_of_not_present hbelow, classify_of_not_present (by rw [hkeep u htab]; exact hempty)]
    · exact congrArg classify (hlink.probe_other htree rfl hpre)

/-! ## The frames that become tables -/

/-- No table is lost, the frames that are no longer free are tables, and only
tables and the bitmap were written. -/
structure Linked (v v' : Vmm) : Prop where
  tables : ∀ t, v.Table t → v'.Table t
  frames : ∀ f ∈ v.pmm.freeSet, f ∈ v'.pmm.freeSet ∨ v'.Table f
  bitmap : ∀ f, v'.pmm.HoldsBitmap f ↔ v.pmm.HoldsBitmap f
  writes : ∀ x, v'.pmm.mem x ≠ v.pmm.mem x → v'.Table (x / 4096) ∨ v.pmm.HoldsBitmap (x / 4096)

theorem Linked.refl (v : Vmm) : v.Linked v :=
  ⟨fun _ h => h, fun _ h => .inl h, fun _ => Iff.rfl, fun _ h => absurd rfl h⟩

theorem Linked.trans (h : v.Linked v') (h' : v'.Linked v'') : v.Linked v'' := by
  refine ⟨fun t ht => h'.tables t (h.tables t ht), fun f hf => ?_,
    fun f => (h'.bitmap f).trans (h.bitmap f), fun x hx => ?_⟩
  · rcases h.frames f hf with hfree | htab
    · exact h'.frames f hfree
    · exact .inr (h'.tables f htab)
  · by_cases hsame : v''.pmm.mem x = v'.pmm.mem x
    · rw [hsame] at hx
      exact (h.writes x hx).imp (h'.tables _) id
    · exact (h'.writes x hsame).imp id (h.bitmap _).mp

/-- Writing a leaf moves no table and takes no frame. -/
theorem leafWrite_linked (wf : v.WF) (hp : p.length = 3) (ht : v.tableAt p = some t) (j : Fin 512)
    (e : Word) : v.Linked (v.setEntry (frameAddr t) j e) := by
  have htab : v.Table t := ⟨p, by omega, ht⟩
  have hwrite := leafWrite_write hp ht j e
  have hfree := (setEntry_pmm htab.lt (wf.offBitmap t htab) wf.pmm j e).2
  refine ⟨fun u hu => (hwrite.isTable wf.tree).mpr hu, fun f hf => .inl ?_, fun _ => Iff.rfl,
    fun x hx => .inl ?_⟩
  · rw [hfree]
    exact hf
  · have hframe : x / 4096 = t := by
      by_contra hne
      exact hx (setEntry_mem htab.lt j e hne)
    rw [hframe]
    exact (hwrite.isTable wf.tree).mpr htab

/-- The frame that is linked becomes a table. -/
theorem linkTable_linked (wf : v.WF) {q : Pmm} (h : AllocOk v.pmm f q) (hp : p.length < 3)
    (ht : v.tableAt p = some t) (hempty : entryPresent (tables v.pmm.mem t i) = false) {e : Word}
    (he : nextTable e = some f) :
    v.Linked ((v.withPmm q).setEntry (frameAddr t) i e) ∧
    ((v.withPmm q).setEntry (frameAddr t) i e).pmm.freeSet.card + 1 = v.pmm.freeSet.card := by
  have htab : v.Table t := ⟨p, by omega, ht⟩
  have hkeep := alloc_keepsTables wf h
  have hallocated := alloc_keeps wf h
  have htree := hallocated.wf.tree
  obtain ⟨hlink, -⟩ := linkTable_link wf h hp ht hempty he
  have hfree := (setEntry_pmm (v := v.withPmm q) htab.lt
    (hallocated.wf.offBitmap t (hkeep.isTable.mpr htab)) hallocated.wf.pmm i e).2
  have hset : ((v.withPmm q).setEntry (frameAddr t) i e).pmm.freeSet = v.pmm.freeSet.erase f :=
    hfree.trans h.freeSet
  have hstays : ∀ u, v.Table u → ((v.withPmm q).setEntry (frameAddr t) i e).Table u :=
    fun u hu => hlink.isTable_stays htree (hkeep.isTable.mpr hu)
  have hnew : ((v.withPmm q).setEntry (frameAddr t) i e).Table f := by
    refine ⟨p ++ [i], ?_, hlink.descend_self htree⟩
    rw [List.length_append, List.length_singleton]
    omega
  refine ⟨⟨hstays, fun g hg => ?_, fun g => holdsBitmap_congr h.bitmap h.frameCount,
    fun x hx => ?_⟩, ?_⟩
  · rw [hset]
    by_cases hgf : g = f
    · exact .inr (hgf ▸ hnew)
    · exact .inl (Finset.mem_erase.mpr ⟨hgf, hg⟩)
  · by_cases hxt : x / 4096 = t
    · rw [hxt]
      exact .inl (hstays t htab)
    by_cases hxf : x / 4096 = f
    · rw [hxf]
      exact .inl hnew
    · -- the allocation itself writes the bitmap and the frame
      refine .inr ?_
      by_contra hoff
      unfold Pmm.HoldsBitmap at hoff
      rw [setEntry_mem (v := v.withPmm q) htab.lt i e hxt] at hx
      have hpage : x < f * 4096 ∨ (f + 1) * 4096 ≤ x := by omega
      have hstore : x < v.pmm.bitmap.toNat ∨ v.pmm.bitmapEnd ≤ x := by omega
      exact hx (h.frame x hpage hstore)
  · rw [hset, Finset.card_erase_of_mem h.wasFree]
    have := Finset.card_pos.mpr ⟨f, h.wasFree⟩
    omega

/-! ## `ensure_next_level` -/

/-- The entry `ensure_next_level` writes for the new table in frame `f`. -/
def linkEntry (f : Nat) : Word := frameAddr f ||| ptePresent ||| pteWritable ||| pteUser

theorem nextTable_linkEntry (hf : f < 2 ^ 40) : nextTable (linkEntry f) = some f := nextTable_link hf

theorem entryFrame_of_nextTable {e : Word} (h : nextTable e = some f) : entryFrame e = f := by
  unfold nextTable at h
  split at h
  · exact Option.some.inj h
  · exact absurd h (by simp)

/-- `ensure_next_level` follows an entry that is present, and otherwise links a
fresh frame, if there is one. -/
theorem ensureNextLevel_cases (wf : v.WF) (htab : v.Table t) (i : Fin 512) :
    entryPresent (tables v.pmm.mem t i) = true ∧ ensureNextLevel v (frameAddr t) i =
        (some (frameAddr (entryFrame (tables v.pmm.mem t i))), v) ∨
    entryPresent (tables v.pmm.mem t i) = false ∧
      (v.pmm.freeSet = ∅ ∧ ensureNextLevel v (frameAddr t) i = (none, v) ∨
        ∃ f q, AllocOk v.pmm f q ∧ ensureNextLevel v (frameAddr t) i =
          (some (frameAddr f), (v.withPmm q).setEntry (frameAddr t) i (linkEntry f))) := by
  have hread : ∀ w : Vmm, w.entry (frameAddr t) i = tables w.pmm.mem t i := by
    intro w
    rw [Vmm.entry, toNat_frameAddr (Nat.lt_trans htab.lt (by decide))]
    rfl
  unfold ensureNextLevel
  simp only [hread, and_ptePresent, and_pteAddrMask]
  cases hpresent : entryPresent (tables v.pmm.mem t i)
  · refine .inr ⟨rfl, ?_⟩
    rcases alloc_cases wf with ⟨hnoFree, hnone⟩ | ⟨f, q, halloc, hne, hok⟩
    · rw [hnone]
      exact .inl ⟨hnoFree, rfl⟩
    · refine .inr ⟨f, q, hok, ?_⟩
      have hentry := setEntry_tables (v := v.withPmm q) htab.lt i (linkEntry f) t i
      rw [if_pos ⟨rfl, rfl⟩] at hentry
      have hframe := entryFrame_of_nextTable (nextTable_linkEntry (alloc_lt wf hok))
      simp only [halloc, if_true, if_neg hne]
      exact congrArg (fun e => (some (frameAddr e),
        (v.withPmm q).setEntry (frameAddr t) i (linkEntry f)))
        ((congrArg entryFrame hentry).trans hframe)
  · exact .inl ⟨rfl, by rw [if_neg (by decide)]⟩

/-- `ensure_next_level` reaches the next table, or fails for lack of a frame;
either way it changes no translation. -/
theorem ensureNextLevel_spec (wf : v.WF) (hp : p.length < 3) (ht : v.tableAt p = some t)
    (hsmall : entryPresent (tables v.pmm.mem t i) = true →
      entryLarge (tables v.pmm.mem t i) = false) :
    v.Keeps (ensureNextLevel v (frameAddr t) i).2 ∧
    (∀ a, (ensureNextLevel v (frameAddr t) i).2.walk a = v.walk a) ∧
    ((ensureNextLevel v (frameAddr t) i).1 = none ∨
      ∃ t', (ensureNextLevel v (frameAddr t) i).1 = some (frameAddr t') ∧
        (ensureNextLevel v (frameAddr t) i).2.tableAt (p ++ [i]) = some t') := by
  rcases ensureNextLevel_cases wf ⟨p, by omega, ht⟩ i with
    ⟨hpresent, hcall⟩ | ⟨hempty, ⟨-, hcall⟩ | ⟨f, q, hok, hcall⟩⟩
  · rw [hcall]
    refine ⟨Keeps.refl wf, fun _ => rfl, .inr ⟨_, rfl, ?_⟩⟩
    unfold Vmm.tableAt at ht ⊢
    rw [descend_snoc ht, nextTable, hpresent, hsmall hpresent]
    rfl
  · rw [hcall]
    exact ⟨Keeps.refl wf, fun _ => rfl, .inl rfl⟩
  · rw [hcall]
    obtain ⟨hkeeps, hnext, hwalk⟩ := linkTable wf hok hp ht hempty
      (nextTable_linkEntry (alloc_lt wf hok))
    exact ⟨hkeeps, hwalk, .inr ⟨f, rfl, hnext⟩⟩

/-- The frame it takes is linked. -/
theorem ensureNextLevel_linked (wf : v.WF) (hp : p.length < 3) (ht : v.tableAt p = some t) :
    v.Linked (ensureNextLevel v (frameAddr t) i).2 := by
  rcases ensureNextLevel_cases wf ⟨p, by omega, ht⟩ i with
    ⟨-, hcall⟩ | ⟨hempty, ⟨-, hcall⟩ | ⟨f, q, hok, hcall⟩⟩
  · rw [hcall]
    exact Linked.refl v
  · rw [hcall]
    exact Linked.refl v
  · rw [hcall]
    exact (linkTable_linked wf hok hp ht hempty (nextTable_linkEntry (alloc_lt wf hok))).1

end Vmm

end QuinKernel
