import QuinKernel.Heap.Theorems

/-!
# The order of frees does not matter

Which merges a `kfree` makes depends on what was freed before it, the block
list that results does not: a coalesced row is determined by its chunks in use
(`Coalesced.unique`), and freeing takes exactly the freed chunk out of them. So
two orders of the same frees end in the same row, and freeing everything ends
in the one block `heap_init` made.
-/

namespace QuinKernel

open Machine Heap

/-- Freeing the pointers in order. -/
def HeapClient.freeAll (s : HeapClient) (ps : List Word) : HeapClient :=
  ps.foldl (fun s p => ⟨kfree s.heap p, s.live.erase p⟩) s

/-- Both block lists run through the headers `bs`, which are the same in both:
sizes, free flags and links. -/
structure SameBlocks (h h' : Heap) (bs : List Word) : Prop where
  reached : Reached h.mem h.freeList bs
  freeList : h'.freeList = h.freeList
  reached' : Reached h'.mem h'.freeList bs
  headers : ∀ b ∈ bs, header h'.mem b.toNat = header h.mem b.toNat

/-- Two memories that hold the same row have the same headers in it. -/
theorem Seg.headers_eq {m m' : Mem} {a prev : Nat} {cs : List Chunk} (h : Seg m 0 a prev cs)
    (h' : Seg m' 0 a prev cs) (ha : a + span cs < 2 ^ 64) :
    ∀ b ∈ headers a cs, header m' b.toNat = header m b.toNat := by
  induction cs generalizing a prev with
  | nil =>
      intro b hb
      cases hb
  | cons c cs ih =>
      intro b hb
      have hspan : span (c :: cs) = c.extent + span cs := rfl
      rcases List.mem_cons.mp hb with rfl | hb
      · rw [h.header_first ha, h'.header_first ha]
      · exact ih h.2 h'.2 (by omega) b hb

/-- Filtering out the only element with its key. -/
theorem filter_key_ne {α β : Type} [DecidableEq β] {f : α → β} {l₁ l₂ : List α} {x : α}
    (h : ((l₁ ++ x :: l₂).map f).Nodup) :
    (l₁ ++ x :: l₂).filter (fun u => f u ≠ f x) = l₁ ++ l₂ := by
  rw [List.map_append, List.map_cons, List.nodup_middle, List.nodup_cons, ← List.map_append] at h
  have hne : ∀ u ∈ l₁ ++ l₂, f u ≠ f x := by
    intro u hu heq
    exact h.1 (heq ▸ List.mem_map_of_mem hu)
  rw [List.filter_append, List.filter_cons_of_neg (by simp), ← List.filter_append,
    List.filter_eq_self]
  intro u hu
  exact decide_eq_true (hne u hu)

section Frees

variable {s s' : HeapClient} {cs : List Chunk} {ps : List Word}

/-- A row in the heap's range is the heap's block list. -/
theorem Represents.reached (h : Represents s cs) :
    Reached s.heap.mem s.heap.freeList (headers heapVbase.toNat cs) := h.blockList.reached

theorem Represents.sameBlocks (h : Represents s cs) (h' : Represents s' cs) :
    SameBlocks s.heap s'.heap (headers heapVbase.toNat cs) where
  reached := h.reached
  freeList := h'.freeList.trans h.freeList.symm
  reached' := h'.reached
  headers := h.seg.headers_eq h'.seg h.fits

/-- Freeing one live pointer takes its chunk out of those in use. -/
theorem Represents.free_used (h : Represents s cs) {ptr : Word} (hptr : ptr ∈ s.live) :
    ∃ cs', Represents ⟨kfree s.heap ptr, s.live.erase ptr⟩ cs' ∧
      used heapVbase.toNat cs' =
        (used heapVbase.toNat cs).filter (fun u => BitVec.ofNat 64 u.1 ≠ ptr) := by
  obtain ⟨before, size, after, rfl, hpos⟩ := h.exists_chunk hptr
  refine ⟨_, h.release hpos, ?_⟩
  have hsplit : used heapVbase.toNat (before ++ ⟨size, false⟩ :: after) =
      used heapVbase.toNat before ++ (heapVbase.toNat + span before + headerBytes, size) ::
        used (heapVbase.toNat + span before + (headerBytes + size)) after := by
    rw [used_append, used_cons]
    rfl
  have hnodup := inUse_map_nodup h.fits
  rw [inUse_eq_used, List.map_map, hsplit] at hnodup
  rw [release_used, hsplit, hpos]
  exact (filter_key_ne hnodup).symm

/-- **Freeing what was just allocated** gives the row back. -/
theorem Represents.malloc_free (h : Represents s cs) {size r : Word} {heap' : Heap}
    (hcall : kmalloc s.heap size = some (r, heap')) (hr : r ≠ 0) :
    Represents ⟨kfree heap' r, s.live⟩ cs := by
  rcases h.malloc_result hcall with ⟨hnull, -⟩ | ⟨o, cs', -, htake, hpos, h'⟩
  · exact absurd hnull hr
  obtain ⟨cs'', h'', hused⟩ := h'.free_used List.mem_cons_self
  rw [List.erase_cons_head] at h''
  -- the chunk taken is the one the pointer names
  obtain ⟨l₁, l₂, n, hold, hnew, -⟩ := take_used htake heapVbase.toNat
  have hnodup := inUse_map_nodup h'.fits
  rw [inUse_eq_used, List.map_map, hnew] at hnodup
  have hback : used heapVbase.toNat cs'' = used heapVbase.toNat cs := by
    rw [hused, hnew, hold, hpos]
    exact filter_key_ne hnodup
  have hspan := h''.spans.trans h.spans.symm
  obtain rfl := h''.coalesced.unique h.coalesced hspan hback
  exact h''

/-- Freeing live pointers, each once, takes exactly their chunks out of those
in use, in any order. -/
theorem Represents.freeAll (h : Represents s cs) (hnodup : ps.Nodup) (hlive : ∀ p ∈ ps, p ∈ s.live) :
    ∃ cs', Represents (s.freeAll ps) cs' ∧
      used heapVbase.toNat cs' =
        (used heapVbase.toNat cs).filter (fun u => BitVec.ofNat 64 u.1 ∉ ps) := by
  induction ps generalizing s cs with
  | nil => exact ⟨cs, h, (List.filter_eq_self.mpr (fun u _ => by simp)).symm⟩
  | cons p ps ih =>
      obtain ⟨hp, hnodup⟩ := List.nodup_cons.mp hnodup
      obtain ⟨cs₁, h₁, hused₁⟩ := h.free_used (hlive p List.mem_cons_self)
      -- the other pointers are still live
      have hlive₁ : ∀ q ∈ ps, q ∈ s.live.erase p := by
        intro q hq
        have hne : q ≠ p := fun heq => hp (heq ▸ hq)
        exact (List.mem_erase_of_ne hne).mpr (hlive q (List.mem_cons_of_mem p hq))
      obtain ⟨cs', h', hused'⟩ := ih h₁ hnodup hlive₁
      refine ⟨cs', h', ?_⟩
      rw [hused', hused₁, List.filter_filter]
      congr 1
      funext u
      simp [Bool.and_comm]

/-- The heap after any two orders of the same frees is described by one row. -/
theorem Represents.freeAll_perm (h : Represents s cs) {ps' : List Word} (hnodup : ps.Nodup)
    (hlive : ∀ p ∈ ps, p ∈ s.live) (hperm : ps'.Perm ps) :
    ∃ cs', Represents (s.freeAll ps) cs' ∧ Represents (s.freeAll ps') cs' := by
  obtain ⟨cs₁, h₁, hused₁⟩ := h.freeAll hnodup hlive
  obtain ⟨cs₂, h₂, hused₂⟩ := h.freeAll (hperm.nodup_iff.mpr hnodup)
    (fun p hp => hlive p (hperm.mem_iff.mp hp))
  have hused : used heapVbase.toNat cs₁ = used heapVbase.toNat cs₂ := by
    rw [hused₁, hused₂]
    congr 1
    funext u
    simp only [hperm.mem_iff]
  have heq := h₁.coalesced.unique h₂.coalesced (h₁.spans.trans h₂.spans.symm) hused
  exact ⟨cs₁, h₁, heq ▸ h₂⟩

/-- Freeing everything leaves one free block. -/
theorem Represents.freeAll_live (h : Represents s cs) (hperm : ps.Perm s.live) :
    Represents (s.freeAll ps) [⟨heapSize.toNat - 32, true⟩] := by
  have hnodup : s.live.Nodup := h.live.nodup_iff.mpr (inUse_map_nodup h.fits)
  obtain ⟨cs', h', hused⟩ := h.freeAll (hperm.nodup_iff.mpr hnodup)
    (fun p hp => hperm.mem_iff.mp hp)
  -- every chunk in use was live
  have hnone : used heapVbase.toNat cs' = [] := by
    rw [hused, List.filter_eq_nil_iff]
    intro u hu
    have hmem : BitVec.ofNat 64 u.1 ∈ ps := by
      rw [hperm.mem_iff, h.live.mem_iff, inUse_eq_used]
      exact List.mem_map_of_mem (List.mem_map_of_mem hu)
    simpa using hmem
  have hone : Coalesced [⟨heapSize.toNat - 32, true⟩] := List.isChain_singleton _
  obtain rfl := h'.coalesced.unique hone h'.spans hnone
  exact h'

end Frees

/-- **The order of frees does not matter.** In every reachable state of the
heap, freeing distinct live pointers in two orders ends in the same block list:
the same headers with the same sizes, free flags and links. Freeing all live
pointers, in any order, ends in the one free block `heap_init` makes. -/
theorem kfree_any_order {s : HeapClient} (h : heapSystem.Reachable s) :
    (∀ ps ps' : List Word, ps.Nodup → (∀ p ∈ ps, p ∈ s.live) → ps'.Perm ps →
      ∃ bs, SameBlocks (s.freeAll ps).heap (s.freeAll ps').heap bs) ∧
    ∀ ps : List Word, ps.Perm s.live →
      (s.freeAll ps).heap.freeList = heapVbase ∧
      Reached (s.freeAll ps).heap.mem heapVbase [heapVbase] ∧
      header (s.freeAll ps).heap.mem heapVbase.toNat = ⟨heapSize - headerSize, true, 0, 0⟩ := by
  obtain ⟨cs, hcs⟩ := represents_invariant s h
  constructor
  · intro ps ps' hnodup hlive hperm
    obtain ⟨cs', h₁, h₂⟩ := hcs.freeAll_perm hnodup hlive hperm
    exact ⟨_, h₁.sameBlocks h₂⟩
  · intro ps hperm
    have hone := hcs.freeAll_live hperm
    refine ⟨hone.freeList, ?_, hone.seg.header_first hone.fits⟩
    have hreached := hone.reached
    rw [hone.freeList] at hreached
    exact hreached

/-- Two blocks, freed in either order. -/
theorem kfree_any_order_twoBlocks :
    ∃ s : HeapClient, s.live = [heapVbase + 176, heapVbase + 32] ∧
      (∃ bs, SameBlocks (s.freeAll [heapVbase + 32, heapVbase + 176]).heap
        (s.freeAll [heapVbase + 176, heapVbase + 32]).heap bs) ∧
      header (s.freeAll s.live).heap.mem heapVbase.toNat =
        ⟨heapSize - headerSize, true, 0, 0⟩ := by
  obtain ⟨heap, hreach⟩ := freshHeap_twoBlocks
  obtain ⟨horders, hall⟩ := kfree_any_order hreach
  refine ⟨_, rfl, ?_, (hall _ (.refl _)).2.2⟩
  have hswap : [heapVbase + 176, heapVbase + 32].Perm [heapVbase + 32, heapVbase + 176] := .swap ..
  exact horders _ _ (by decide +kernel) (fun p hp => hswap.mem_iff.mpr hp) hswap

end QuinKernel
