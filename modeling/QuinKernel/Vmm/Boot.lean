import QuinKernel.Pmm.Client
import QuinKernel.Pmm.Exact
import QuinKernel.Vmm.Retry

/-!
# From the bootloader's memory map to the paging code

`pmm_init` builds the frame bitmap inside usable memory, and `vmm.c` goes on
with the tables the bootloader left in CR3, which lie in memory it does not
call usable. So the tables outlive `pmm_init`, the state the paging code starts
from is well-formed (`vmmStart_confined`), and from then on frames and new
tables come out of usable memory only: what the bootloader did not call usable
is written by nobody but a client that was given its address.
-/

namespace QuinKernel

open Machine RadixTree

/-! ## What `pmm_init` leaves alone -/

section Init

variable {memmap : List BootMemmapEntry} {m : Mem} {p : Pmm}

/-- The bitmap lies in a usable region. -/
theorem InitOk.usable_of_holdsBitmap (hok : MemmapOk memmap) (h : InitOk memmap p) {f : Nat}
    (hf : p.HoldsBitmap f) : InUsable memmap f := by
  obtain ⟨e, he, hty, hbase, hend⟩ := h.region
  obtain ⟨hb4, hl4⟩ := hok.aligned e he hty
  obtain ⟨hlo, hhi⟩ := hf
  rw [← hbase] at hhi
  exact ⟨e, he, hty, by omega, by omega⟩

end Init

/-! ## Where the paging code starts -/

/-- Frame `t` is one of the page tables the bootloader built. -/
def BootTable (m : Mem) (cr3 : Word) (t : Nat) : Prop :=
  IsTable nextTable (tables m) 3 (entryFrame cr3) t

/-- What the bootloader promises of the tables it leaves in CR3: they form a
tree and lie outside usable memory. Physical addresses have 52 bits. -/
structure HandOver (memmap : List BootMemmapEntry) (m : Mem) (cr3 : Word) : Prop where
  tree : IsTree nextTable (tables m) 3 (entryFrame cr3)
  outside : ∀ t, BootTable m cr3 t → ¬ InUsable memmap t
  physical : ∀ e ∈ memmap, e.base.toNat + e.length.toNat ≤ 2 ^ 52

/-- Frames and tables come out of usable memory, the boot tables apart. -/
structure Confined (memmap : List BootMemmapEntry) (boot : Nat → Prop) (v : Vmm) : Prop where
  wf : v.WF
  bitmap : ∀ f, v.pmm.HoldsBitmap f → InUsable memmap f
  free : ∀ f ∈ v.pmm.freeSet, Managed memmap v.pmm f
  tables : ∀ t, v.Table t → boot t ∨ Managed memmap v.pmm t

theorem InUsable.of_take {memmap : List BootMemmapEntry} {n f : Nat}
    (h : InUsable (memmap.take n) f) : InUsable memmap f := by
  obtain ⟨e, he, hin⟩ := h
  exact ⟨e, List.mem_of_mem_take he, hin⟩

theorem HandOver.take {memmap : List BootMemmapEntry} {m : Mem} {cr3 : Word}
    (h : HandOver memmap m cr3) (n : Nat) : HandOver (memmap.take n) m cr3 :=
  ⟨h.tree, fun t ht hin => h.outside t ht hin.of_take,
    fun e he => h.physical e (List.mem_of_mem_take he)⟩

section Start

variable {memmap : List BootMemmapEntry} {m : Mem} {cr3 : Word} {p : Pmm}

/-- The boot tables outlive `pmm_init`. -/
theorem HandOver.keeps (hand : HandOver memmap m cr3) (hok : MemmapOk memmap)
    (hinit : InitOk memmap p) (hagree : AgreeOff p.bitmap.toNat p.bitmapEnd m p.mem) :
    RadixTree.Keeps nextTable 3 (entryFrame cr3) (tables m) (tables p.mem) := by
  intro t ht
  refine tables_congr (fun x hlo hhi => hagree x ?_)
  -- a byte `pmm_init` writes is in the bitmap, so in usable memory
  by_contra hx
  refine hand.outside t ht (hinit.usable_of_holdsBitmap hok ?_)
  unfold Pmm.HoldsBitmap
  omega

end Start

/-! ## Runs -/

/-- A client hands back frames of usable memory only. -/
def FreesUsable (memmap : List BootMemmapEntry) : VmmCall → Prop
  | .freeFrame f => InUsable memmap f
  | _ => True

section Runs

variable {memmap : List BootMemmapEntry} {boot : Nat → Prop} {v v' w : Vmm} {x : Nat}

/-- Memory that is neither usable nor a boot table is nothing of the kernel's. -/
theorem Confined.data (h : Confined memmap boot v) {f : Nat} (hboot : ¬ boot f)
    (huse : ¬ InUsable memmap f) : v.Data f :=
  ⟨fun ht => (h.tables f ht).elim hboot (fun hm => huse hm.2.1),
   fun hf => huse (h.free f hf).2.1, fun hf => huse (h.bitmap f hf)⟩

theorem Confined.congr (h : Confined memmap boot v) (hpmm : w.pmm = v.pmm) (hcr3 : w.cr3 = v.cr3) :
    Confined memmap boot w := by
  obtain ⟨p, c, d, k, l⟩ := w
  obtain rfl : p = v.pmm := hpmm
  obtain rfl : c = v.cr3 := hcr3
  exact ⟨h.wf.congr rfl rfl, h.bitmap, h.free, h.tables⟩

/-- A paging operation stays within the memory it has. -/
theorem Confined.keeps (h : Confined memmap boot v) (hkeeps : v.Keeps v') :
    Confined memmap boot v' := by
  have hmanaged : ∀ f, Managed memmap v'.pmm f ↔ Managed memmap v.pmm f :=
    managed_congr hkeeps.bitmap hkeeps.frameCount
  refine ⟨hkeeps.wf, fun f hf => ?_, fun f hf => ?_, fun t ht => ?_⟩
  · rw [Vmm.holdsBitmap_congr hkeeps.bitmap hkeeps.frameCount] at hf
    exact h.bitmap f hf
  · exact (hmanaged f).mpr (h.free f (hkeeps.freeSet hf))
  · rcases hkeeps.newTable t ht with hold | hfree
    · exact (h.tables t hold).imp_right (hmanaged t).mpr
    · exact .inr ((hmanaged t).mpr (h.free t hfree))

/-- A usable frame goes back to the free ones. -/
theorem Confined.freeFrame (h : Confined memmap boot v) {f : Nat} {q : Pmm} (hdata : v.Data f)
    (hlt : f < v.pmm.frameCount.toNat) (hf0 : f ≠ 0) (huse : InUsable memmap f)
    (hq : pmmFreeFrame v.pmm (frameAddr f) = .ok q) :
    Confined memmap boot (v.withPmm q) ∧
      ∀ x, ¬ v.pmm.HoldsBitmap (x / 4096) → q.mem x = v.pmm.mem x := by
  obtain ⟨q', hq', hwf, hbm, hfc, hfree, htable, hmem, -⟩ := Vmm.free_spec h.wf hdata hlt hf0
  obtain rfl := Except.ok.inj (hq.symm.trans hq')
  have hmanaged : ∀ g, Managed memmap q g ↔ Managed memmap v.pmm g := managed_congr hbm hfc
  refine ⟨⟨hwf, fun g hg => ?_, fun g hg => ?_, fun t ht => ?_⟩, hmem⟩
  · change q.HoldsBitmap g at hg
    rw [Vmm.holdsBitmap_congr hbm hfc] at hg
    exact h.bitmap g hg
  · change g ∈ q.freeSet at hg
    rw [hfree, Finset.mem_insert] at hg
    rcases hg with rfl | hg
    · exact (hmanaged g).mpr ⟨hf0, huse, hdata.2.2⟩
    · exact (hmanaged g).mpr (h.free g hg)
  · exact (h.tables t ((htable t).mp ht)).imp_right (hmanaged t).mpr

/-- A client's store to its own memory touches neither bitmap nor tables. -/
theorem Confined.store (h : Confined memmap boot v) {b : Byte} (hdata : v.Data (x / 4096))
    (hundisturbed : v.Undisturbed (v.withPmm (v.pmm.withMem (store8 v.pmm.mem x b)))) :
    Confined memmap boot (v.withPmm (v.pmm.withMem (store8 v.pmm.mem x b))) := by
  have hfree : (v.pmm.withMem (store8 v.pmm.mem x b)).freeSet = v.pmm.freeSet := by
    refine Pmm.freeSet_congr rfl rfl (fun y hlo hhi => store8_other _ _ ?_)
    rintro rfl
    refine hdata.2.2 ?_
    unfold Pmm.HoldsBitmap
    omega
  refine ⟨hundisturbed.wf, h.bitmap, fun f hf => h.free f ?_, fun t ht => h.tables t ?_⟩
  · rw [← hfree]
    exact hf
  · exact hundisturbed.tables.isTable.mp ht

/-- **One call** keeps the kernel within its memory, and writes no byte outside
it but the one a client stores to. -/
theorem Confined.step {v₀ : Vmm} {c : VmmCall} (h : Confined memmap boot v)
    (hsmall : SmallPaths v c) (hfrees : FreesUsable memmap c) (hstep : (vmmSystem v₀).step v c v') :
    Confined memmap boot v' ∧ ∀ x, ¬ boot (x / 4096) → ¬ InUsable memmap (x / 4096) →
      (∀ b, c ≠ .store x b) → v'.pmm.mem x = v.pmm.mem x := by
  have hundisturbed := fun hc : c.Elsewhere => vmmSystem_elsewhere h.wf hc hstep
  rcases vmmSystem_cases h.wf hsmall hstep with
    ⟨f, q, rfl, ⟨hdata, hlt, hf0⟩, hq, rfl⟩ | ⟨y, b, rfl, hdata, rfl⟩ | ⟨w, hpmm, hcr3, hkeeps⟩
  · -- only the frame's bit changes, and the bitmap is in usable memory
    obtain ⟨hconfined, hmem⟩ := h.freeFrame hdata hlt hf0 hfrees hq
    exact ⟨hconfined, fun x _ huse _ => hmem x (fun hb => huse (h.bitmap _ hb))⟩
  · refine ⟨h.store hdata (hundisturbed trivial), fun x _ _ hne => store8_other _ _ ?_⟩
    rintro rfl
    exact hne b rfl
  · -- what is neither usable nor a boot table is data, which paging leaves alone
    have hw := h.congr hpmm hcr3
    refine ⟨hw.keeps hkeeps, fun x hboot huse _ => ?_⟩
    rw [hkeeps.data x (hw.data hboot huse), hpmm]

/-- **A whole run** does. -/
theorem Confined.run {v₀ : Vmm} {es : List VmmCall}
    (hrun : ((vmmSystem v₀).restrict (fun s c => SmallPaths s c ∧ FreesUsable memmap c)).Run
      v es v')
    (h : Confined memmap boot v) :
    Confined memmap boot v' ∧ ∀ x, ¬ boot (x / 4096) → ¬ InUsable memmap (x / 4096) →
      (∀ b, .store x b ∉ es) → v'.pmm.mem x = v.pmm.mem x := by
  induction hrun with
  | nil => exact ⟨h, fun _ _ _ _ => rfl⟩
  | @cons s s₁ s' c es hstep hrest ih =>
      obtain ⟨h₁, hmem₁⟩ := h.step hstep.1.1 hstep.1.2 hstep.2
      obtain ⟨h', hmem'⟩ := ih h₁
      refine ⟨h', fun x hboot huse hstore => ?_⟩
      rw [hmem' x hboot huse (fun b hb => hstore b (List.mem_cons_of_mem _ hb)),
        hmem₁ x hboot huse (fun b hb => hstore b (hb ▸ List.mem_cons_self))]

end Runs

end QuinKernel
