import QuinKernel.Vmm.Accounting
import QuinKernel.Vmm.Rights
import QuinKernel.Vmm.Windows
import QuinKernel.Heap.Model
import QuinKernel.Sched.ContextSwitch

/-!
# Writable or executable, not both

`kernelSystem` runs the calls that map the kernel's own memory: `heap_init`,
the stacks of `thread_create` and `syscall_init`, device pages, and the page
faults in registered regions. Only `vmm_map_mmio` asks for `VMM_NO_EXECUTE`;
the heap and the stacks are mapped with `VMM_WRITABLE` alone. `MapsNoWriteExecute`
leaves out the calls that map such a page, and in a run without them every leaf
that was not there at the start is writable or executable, not both
(`vmm_write_xor_execute`).
-/

namespace QuinKernel

open Machine

/-! ## The calls -/

/-- `SYSCALL_KERNEL_STACK_PAGES`. -/
def syscallKernelStackPages : Word := 4

/-- The stack of `syscall_init`: the address it hands to the TSS and to
`syscall_entry`. -/
def syscallInit (v : Vmm) : Except Panic (Word × Vmm) :=
  match vmmAllocGuarded v syscallKernelStackPages vmmWritable with
  | .error e => .error e
  | .ok (none, _) => .error ⟨"syscall: failed to allocate the kernel-entry stack", []⟩
  | .ok (some stack, v) => .ok (stack + syscallKernelStackPages * pageSize, v)

inductive KernelCall
  | heapInit
  | fault (faultAddr errorCode : Word)
  /-- `thread_create`, once `kmalloc` has found room for the thread. -/
  | threadCreate
  | syscallInit
  | mmio (phys : Word)
  /-- A store to memory that is in use and holds no tables. -/
  | store (x : Nat) (b : Byte)

/-- The kernel's mappings, from any address space on. The stores of `heap_init`
and `kmalloc` into the heap fault like any others. -/
def kernelSystem (v₀ : Vmm) : System Vmm KernelCall where
  init v := v = v₀
  step v c v' :=
    match c with
    | .heapInit => ∃ m h, heapInit v m = .ok (h, v')
    | .fault faultAddr errorCode =>
        CpuFault v faultAddr errorCode ∧ v' = (vmmHandlePageFault v faultAddr errorCode).2
    | .threadCreate => ∃ stack, vmmAllocGuarded v threadStackPages vmmWritable = .ok (stack, v')
    | .syscallInit => ∃ top, syscallInit v = .ok (top, v')
    | .mmio phys => ∃ virt, vmmMapMmio v phys = .ok (virt, v')
    | .store x b => v.Data (x / 4096) ∧ v' = v.withPmm (v.pmm.withMem (store8 v.pmm.mem x b))

/-! ## Leaves -/

/-- The leaf allows writes and forbids no execution. -/
def WriteExecute (e : Word) : Prop := entryWritable e = true ∧ entryNoExecute e = false

instance (e : Word) : Decidable (WriteExecute e) := inferInstanceAs (Decidable (_ ∧ _))

/-- The flags ask for such a leaf. -/
def AskWriteExecute (flags : BitVec 32) : Prop :=
  flags &&& vmmWritable ≠ 0 ∧ flags &&& vmmNoExecute = 0

instance (flags : BitVec 32) : Decidable (AskWriteExecute flags) :=
  inferInstanceAs (Decidable (_ ∧ _))

theorem writeExecute_leafEntry (phys : Word) (flags : BitVec 32) :
    WriteExecute (Vmm.leafEntry phys flags) ↔ AskWriteExecute flags := by
  have hrights := (leafEntry_rights phys flags).1
  injection hrights with hwritable _ hexecute
  unfold WriteExecute AskWriteExecute
  rw [hwritable, hexecute, decide_eq_true_iff, decide_eq_false_iff_not, ne_eq, not_not]

/-- Whatever leaf the call put in place is writable or executable, not both. -/
def OnlyWriteXorExecute (v v' : Vmm) : Prop :=
  ∀ a e, v'.walk a = .leaf e → v.walk a = .leaf e ∨ ¬ WriteExecute e

/-- No page a stack would begin with can be mapped: its tables would take all
the free frames. -/
def NoRoomForStack (v : Vmm) : Prop :=
  v.NoLargePage (v.dynamicNextVaddr + pageSize) ∧
    v.pmm.freeSet.card ≤ v.missingTables (v.dynamicNextVaddr + pageSize)

/-- The call maps no page that can be both written and executed. -/
def MapsNoWriteExecute (v : Vmm) : KernelCall → Prop
  | .fault faultAddr errorCode => errorCode &&& 1 = 0 → ∀ region,
      v.lazyRegions.find? (·.covers (alignDown faultAddr pageSize)) = some region →
      AskWriteExecute region.flags →
      v.pmm.freeSet.card ≤ v.missingTables (alignDown faultAddr pageSize)
  | .threadCreate => NoRoomForStack v
  | .syscallInit => NoRoomForStack v
  | .mmio _ => v.NoLargePage v.mmioNextVaddr
  | _ => True

section Steps

variable {v v' v'' : Vmm}

theorem OnlyWriteXorExecute.of_walk (h : ∀ a, v'.walk a = v.walk a) : OnlyWriteXorExecute v v' :=
  fun a _ hleaf => .inl ((h a).symm.trans hleaf)

theorem OnlyWriteXorExecute.trans (h : OnlyWriteXorExecute v v') (h' : OnlyWriteXorExecute v' v'') :
    OnlyWriteXorExecute v v'' := by
  intro a e hleaf
  rcases h' a e hleaf with hold | hnot
  · exact h a e hold
  · exact .inr hnot

/-- A call that changes one page only. -/
theorem OnlyWriteXorExecute.of_page {page leaf : Word}
    (hself : v'.walk page = .leaf leaf) (hother : ∀ a, ¬ sameIndices a page → v'.walk a = v.walk a)
    (hnot : ¬ WriteExecute leaf) : OnlyWriteXorExecute v v' := by
  intro a e hleaf
  by_cases hindices : sameIndices a page
  · have hwalk : v'.walk a = v'.walk page := hwWalk_sameIndices _ _ hindices
    obtain rfl : leaf = e := Walk.leaf.inj (hself.symm.trans (hwalk.symm.trans hleaf))
    exact .inr hnot
  · exact .inl ((hother a hindices).symm.trans hleaf)

theorem heapInit_step {m : Mem} {h : Heap} (wf : v.WF) (hcall : heapInit v m = .ok (h, v')) :
    v'.WF ∧ ∀ a, v'.walk a = v.walk a := by
  unfold heapInit vmmRegisterLazyRegion at hcall
  split at hcall
  · exact absurd hcall (by simp)
  · next w hregister =>
    obtain ⟨-, rfl⟩ := Prod.mk.inj (Except.ok.inj hcall)
    split at hregister
    · exact absurd hregister (by simp)
    · obtain ⟨-, rfl⟩ := Prod.mk.inj hregister
      exact ⟨wf.congr rfl rfl, Vmm.walk_congr rfl rfl⟩

/-- The leaf of a fresh frame, as the flags ask. -/
theorem Vmm.MappedFresh.writeExecute_iff {page : Word} {f : Nat} {flags : BitVec 32}
    (h : Vmm.MappedFresh v page f flags true v') (wf : v.WF) :
    WriteExecute (frameAddr f ||| translateFlags flags) ↔ AskWriteExecute flags := by
  have hlt : f < 2 ^ 40 := Nat.lt_of_lt_of_le (Pmm.freeSet_lt h.wasFree) wf.physical
  have hentry : Vmm.leafEntry (frameAddr f) flags = frameAddr f ||| translateFlags flags := by
    rw [Vmm.leafEntry, frameAddr_and_mask hlt]
  rw [← hentry]
  exact writeExecute_leafEntry (frameAddr f) flags

/-- A fault maps its page as the region asks, if there are the frames to. -/
theorem vmmHandlePageFault_step {faultAddr errorCode : Word} (wf : v.WF)
    (hcpu : CpuFault v faultAddr errorCode)
    (hmaps : MapsNoWriteExecute v (.fault faultAddr errorCode)) :
    OnlyWriteXorExecute v (vmmHandlePageFault v faultAddr errorCode).2 := by
  rcases vmmHandlePageFault_frames wf hcpu with
    ⟨-, hcall⟩ | ⟨hlazy, region, f, ok, v', hfind, hcall, hfresh⟩
  · rw [hcall]
    exact .of_walk (fun _ => rfl)
  rw [hcall]
  cases ok with
  | false => exact .of_walk (hfresh.failed rfl)
  | true =>
      refine .of_page (hfresh.mapped rfl) hfresh.other (fun hleaf => ?_)
      have hasks := (hfresh.writeExecute_iff wf).mp hleaf
      exact absurd (hfresh.enough.mp rfl) (Nat.not_lt.mpr (hmaps hlazy.1 region hfind hasks))

/-- Nor is there another case: any other fault maps its page for both. -/
theorem vmmHandlePageFault_writeExecute {faultAddr errorCode : Word} (wf : v.WF)
    (hcpu : CpuFault v faultAddr errorCode)
    (hmaps : ¬ MapsNoWriteExecute v (.fault faultAddr errorCode)) :
    ∃ e, (vmmHandlePageFault v faultAddr errorCode).2.walk faultAddr = .leaf e ∧
      WriteExecute e := by
  unfold MapsNoWriteExecute at hmaps
  push Not at hmaps
  obtain ⟨herr, region, hfind, hasks, henough⟩ := hmaps
  have hlazy : LazyFault v faultAddr errorCode :=
    ⟨herr, region, List.mem_of_find?_eq_some hfind, by simpa using List.find?_some hfind⟩
  rcases vmmHandlePageFault_frames wf hcpu with
    ⟨hnoFree, -⟩ | ⟨-, region', f, ok, v', hfind', hcall, hfresh⟩
  · rw [hnoFree hlazy] at henough
    exact absurd henough (by simp)
  · obtain rfl : region = region' := Option.some.inj (hfind.symm.trans hfind')
    obtain rfl : ok = true := hfresh.enough.mpr henough
    rw [hcall]
    have hsame : v'.walk (alignDown faultAddr pageSize) = v'.walk faultAddr :=
      hwWalk_samePage _ _ (alignDown_samePage faultAddr)
    exact ⟨_, hsame.symm.trans (hfresh.mapped rfl), (hfresh.writeExecute_iff wf).mpr hasks⟩

theorem vmmMapMmio_step {phys virt : Word} (wf : v.WF) (hsmall : v.NoLargePage v.mmioNextVaddr)
    (hcall : vmmMapMmio v phys = .ok (virt, v')) : v'.WF ∧ OnlyWriteXorExecute v v' := by
  obtain ⟨-, hkeeps, hleaf, hother⟩ := vmmMapMmio_page wf hsmall hcall
  refine ⟨hkeeps.wf, .of_page hleaf hother ?_⟩
  rw [mmioLeaf, writeExecute_leafEntry]
  decide

/-- Every call that maps no writable and executable page keeps the tables
well-formed, and puts no such leaf in place. -/
theorem kernelSystem_step {v₀ : Vmm} {c : KernelCall} (wf : v.WF) (hmaps : MapsNoWriteExecute v c)
    (hstep : (kernelSystem v₀).step v c v') : v'.WF ∧ OnlyWriteXorExecute v v' := by
  cases c with
  | heapInit =>
      obtain ⟨m, h, hcall⟩ := hstep
      obtain ⟨hwf, hwalk⟩ := heapInit_step wf hcall
      exact ⟨hwf, .of_walk hwalk⟩
  | fault faultAddr errorCode =>
      obtain ⟨hcpu, rfl⟩ := hstep
      exact ⟨(vmmHandlePageFault_spec wf hcpu).1.wf, vmmHandlePageFault_step wf hcpu hmaps⟩
  | threadCreate =>
      obtain ⟨stack, hcall⟩ := hstep
      obtain ⟨w, hnull, hwf, -, -, hwalk⟩ := vmmAllocGuarded_null wf threadStackPages vmmWritable
        (by decide) hmaps.1 hmaps.2
      obtain ⟨-, rfl⟩ := Prod.mk.inj (Except.ok.inj (hcall.symm.trans hnull))
      exact ⟨hwf, .of_walk hwalk⟩
  | syscallInit =>
      obtain ⟨top, hcall⟩ := hstep
      obtain ⟨w, hnull, -⟩ := vmmAllocGuarded_null wf syscallKernelStackPages vmmWritable
        (by decide) hmaps.1 hmaps.2
      unfold syscallInit at hcall
      rw [hnull] at hcall
      exact absurd hcall (by simp)
  | mmio phys =>
      obtain ⟨virt, hcall⟩ := hstep
      exact vmmMapMmio_step wf hmaps hcall
  | store x b =>
      obtain ⟨hdata, rfl⟩ := hstep
      obtain ⟨hwf, hwalk, -⟩ := Vmm.withMem_spec wf
        (fun y hy => store8_other _ _ (fun heq => hy (heq ▸ hdata)))
      exact ⟨hwf, .of_walk hwalk⟩

end Steps

/-- **Writable or executable.** Whatever was mapped at the start, in every state
that calls mapping no writable and executable page lead to, each leaf was there
at the start or is not both. -/
theorem vmm_write_xor_execute {v₀ v : Vmm} (wf : v₀.WF)
    (hv : ((kernelSystem v₀).restrict MapsNoWriteExecute).Reachable v) :
    ∀ a e, v.walk a = .leaf e → v₀.walk a = .leaf e ∨ ¬ WriteExecute e := by
  have hinv : v.WF ∧ OnlyWriteXorExecute v₀ v := by
    refine System.Inductive.invariant (P := fun v => v.WF ∧ OnlyWriteXorExecute v₀ v) ⟨?_, ?_⟩ v hv
    · rintro s rfl
      exact ⟨wf, .of_walk (fun _ => rfl)⟩
    · rintro s c s' ⟨hwf, honly⟩ ⟨hmaps, hstep⟩
      obtain ⟨hwf', hmore⟩ := kernelSystem_step hwf hmaps hstep
      exact ⟨hwf', honly.trans hmore⟩
  exact hinv.2

/-- A device mapped in the empty address space. -/
theorem vmm_write_xor_execute_emptyTables :
    ∃ virt v, vmmMapMmio emptyTables 0xfee00000 = .ok (virt, v) ∧
      v.walk virt = .leaf (mmioLeaf 0xfee00000) ∧ ¬ WriteExecute (mmioLeaf 0xfee00000) := by
  have hsmall : emptyTables.NoLargePage emptyTables.mmioNextVaddr :=
    Vmm.noLargePage_iff.mpr (.inl (emptyTables_walk _))
  obtain ⟨virt, v, hcall⟩ : ∃ virt v, vmmMapMmio emptyTables 0xfee00000 = .ok (virt, v) := by
    set v₁ : Vmm := { emptyTables with mmioNextVaddr := emptyTables.mmioNextVaddr + pageSize }
      with hv₁
    have hlarge : v₁.NoLargePage emptyTables.mmioNextVaddr :=
      hsmall.congr (Vmm.walk_congr rfl rfl _)
    have hcard : v₁.pmm.freeSet.card = 7 := sevenFrames_ok.count.symm
    have hmissing : v₁.missingTables emptyTables.mmioNextVaddr = 3 := by decide
    have hok := (Vmm.vmmMap_linked (v := v₁) (emptyTables_wf.congr rfl rfl) hlarge 0xfee00000
      (vmmWritable ||| vmmNoCache ||| vmmNoExecute)).2.mpr (by omega)
    unfold vmmMapMmio
    dsimp only
    rw [← hv₁]
    split
    · next hfailed =>
      rw [hfailed] at hok
      exact absurd hok (by simp)
    · exact ⟨_, _, rfl⟩
  obtain ⟨rfl, -, hleaf, -⟩ := vmmMapMmio_page emptyTables_wf hsmall hcall
  have hstep : ((kernelSystem emptyTables).restrict MapsNoWriteExecute).step emptyTables
      (.mmio 0xfee00000) v := ⟨hsmall, _, hcall⟩
  refine ⟨_, v, hcall, hleaf, ?_⟩
  rcases vmm_write_xor_execute emptyTables_wf (.step (.init rfl) hstep) _ _ hleaf with hold | hnot
  · rw [emptyTables_walk] at hold
    exact absurd hold (by simp)
  · exact hnot

/-- **A heap page for both.** `heap_init` registers the heap with
`VMM_WRITABLE` alone, and the store of its first header maps a page that can be
written and executed. -/
theorem heap_init_maps_write_execute :
    ∃ v, (kernelSystem emptyTables).Run emptyTables [.heapInit, .fault heapVbase 0x2] v ∧
      emptyTables.walk heapVbase = .notPresent ∧
      ∃ e, v.walk heapVbase = .leaf e ∧ WriteExecute e := by
  set v := (vmmRegisterLazyRegion emptyTables heapVbase (heapVbase + heapSize) vmmWritable).2 with hv
  have hinit : (kernelSystem emptyTables).step emptyTables .heapInit v := ⟨fun _ => 0, _, rfl⟩
  have wf : v.WF := emptyTables_wf.congr rfl rfl
  have hwalk : ∀ virt, v.walk virt = .notPresent :=
    fun virt => (Vmm.walk_congr (v := emptyTables) rfl rfl virt).trans (emptyTables_walk virt)
  have hcpu : CpuFault v heapVbase 0x2 :=
    ⟨.inr (by decide), iff_of_true (by decide) (hwalk _)⟩
  refine ⟨_, .cons hinit (.single ⟨hcpu, rfl⟩), emptyTables_walk _,
    vmmHandlePageFault_writeExecute wf hcpu (fun hmaps => ?_)⟩
  have hcard : v.pmm.freeSet.card = 7 := sevenFrames_ok.count.symm
  have hmissing : v.missingTables (alignDown heapVbase pageSize) = 3 := by decide
  have hfew := hmaps (by decide) ⟨heapVbase, heapVbase + heapSize, vmmWritable, true⟩ (by decide)
    (by decide)
  omega

end QuinKernel
