import QuinKernel.Heap.Refine
import QuinKernel.Machine.System
import QuinKernel.Vmm.Theorems

/-!
# What the heap guarantees

`heapSystem` runs the heap from any state `heap_init` leaves against clients
that allocate any 64-bit size, free what they hold (or `NULL`) and write into
the payloads they hold. The invariant `Represents` names the row of chunks the
block list refines; each operation keeps it, by the simulations of `Refine`
and the facts about rows.

`BlockList` is the same in the list's own terms: the blocks met from
`free_list` through `next`, tiled, linked both ways and coalesced.
-/

namespace QuinKernel

open Machine Heap

/-- The heap and the pointers its clients hold. -/
structure HeapClient where
  heap : Heap
  live : List Word

/-- What a client does, with the result it sees. -/
inductive HeapCall
  | malloc (size result : Word)
  | free (ptr : Word)
  | write (x : Nat) (b : Byte)

/-- One step of a client. -/
def HeapClient.Step (s : HeapClient) (e : HeapCall) (s' : HeapClient) : Prop :=
  match e with
  | .malloc size r =>
      kmalloc s.heap size = some (r, s'.heap) ∧
        s'.live = if r = 0 then s.live else r :: s.live
  | .free ptr =>
      (ptr = 0 ∨ ptr ∈ s.live) ∧ s'.heap = kfree s.heap ptr ∧ s'.live = s.live.erase ptr
  | .write x b =>
      (∃ p ∈ s.live, p.toNat ≤ x ∧
        x < p.toNat + (header s.heap.mem (p - headerSize).toNat).size.toNat) ∧
        s'.heap = { s.heap with mem := store8 s.heap.mem x b } ∧ s'.live = s.live

/-- The heap with any client. -/
def heapSystem : System HeapClient HeapCall where
  init s := s.live = [] ∧ ∃ v m v', heapInit v m = .ok (s.heap, v')
  step := HeapClient.Step

/-- The blocks met from `node` through `next`, in order, up to `NULL`. -/
def Reached (m : Mem) : Word → List Word → Prop
  | node, [] => node = 0
  | node, b :: bs => node ≠ 0 ∧ b = node ∧ Reached m (header m node.toNat).next bs

/-- `b` is followed by `c`: it ends where `c` starts, and they are linked. -/
structure Follows (m : Mem) (b c : Word) : Prop where
  tiled : b.toNat + 32 + (header m b.toNat).size.toNat = c.toNat
  next : (header m b.toNat).next = c
  prev : (header m c.toNat).prev = b

/-- The heap is in order, `bs` being its blocks. -/
structure BlockList (s : HeapClient) (bs : List Word) : Prop where
  reached : Reached s.heap.mem s.heap.freeList bs
  follows : bs.IsChain (Follows s.heap.mem)
  first : ∃ b ∈ bs.head?, b = heapVbase ∧ (header s.heap.mem b.toNat).prev = 0
  last : ∃ b ∈ bs.getLast?, (header s.heap.mem b.toNat).next = 0 ∧
    b.toNat + 32 + (header s.heap.mem b.toNat).size.toNat = heapVbase.toNat + heapSize.toNat
  granular : ∀ b ∈ bs, (header s.heap.mem b.toNat).size.toNat % 16 = 0
  coalesced : bs.IsChain (fun b c =>
    ¬ ((header s.heap.mem b.toNat).free = true ∧ (header s.heap.mem c.toNat).free = true))
  nodup : s.live.Nodup
  live : ∀ p, p ∈ s.live ↔
    ∃ b ∈ bs, (header s.heap.mem b.toNat).free = false ∧ p = b + headerSize

/-- The row `cs` describes the heap and what its clients hold. -/
structure Represents (s : HeapClient) (cs : List Chunk) : Prop where
  seg : Seg s.heap.mem 0 heapVbase.toNat 0 cs
  freeList : s.heap.freeList = heapVbase
  spans : span cs = heapSize.toNat
  granular : Granular cs
  coalesced : Coalesced cs
  live : s.live.Perm ((inUse heapVbase.toNat cs).map (BitVec.ofNat 64))

/-! ## Reading a row back -/

/-- The addresses of the headers of `cs`. -/
def headers (a : Nat) : List Chunk → List Word
  | [] => []
  | c :: cs => BitVec.ofNat 64 a :: headers (a + c.extent) cs

section Rows

variable {m : Mem} {a prev : Nat} {cs : List Chunk}

theorem Seg.header_first {c : Chunk} (h : Seg m 0 a prev (c :: cs))
    (ha : a + span (c :: cs) < 2 ^ 64) :
    header m (BitVec.ofNat 64 a).toNat = ⟨BitVec.ofNat 64 c.size, c.free, BitVec.ofNat 64 prev,
      BitVec.ofNat 64 (rowStart 0 (a + c.extent) cs)⟩ := by
  rw [toNat_ofNat_of_lt (by omega)]
  exact h.1

theorem Seg.reached (h : Seg m 0 a prev cs) (ha0 : 0 < a) (ha : a + span cs < 2 ^ 64) :
    Reached m (BitVec.ofNat 64 (rowStart 0 a cs)) (headers a cs) := by
  induction cs generalizing a prev with
  | nil => rfl
  | cons c cs ih =>
      have hspan : span (c :: cs) = c.extent + span cs := rfl
      refine ⟨ofNat_ne_zero (b := a) ha0 (by omega), rfl, ?_⟩
      rw [show rowStart 0 a (c :: cs) = a from rfl, h.header_first ha]
      exact ih h.2 (by omega) (by omega)

theorem Seg.follows (h : Seg m 0 a prev cs) (ha : a + span cs < 2 ^ 64) :
    (headers a cs).IsChain (Follows m) := by
  induction cs generalizing a prev with
  | nil => exact .nil
  | cons c cs ih =>
      have hspan : span (c :: cs) = c.extent + span cs := rfl
      have hext : c.extent = 32 + c.size := rfl
      refine List.isChain_cons.mpr ⟨fun b hb => ?_, ih h.2 (by omega)⟩
      cases cs with
      | nil => simp [headers] at hb
      | cons d ds =>
          obtain rfl : BitVec.ofNat 64 (a + c.extent) = b := by simpa [headers] using hb
          have hfirst := h.header_first ha
          have hsecond := h.2.header_first (by omega)
          constructor
          · rw [hfirst, toNat_ofNat_of_lt (by omega), toNat_ofNat_of_lt (by omega),
              toNat_ofNat_of_lt (by omega)]
            omega
          · rw [hfirst]
            rfl
          · rw [hsecond]

theorem Seg.last (h : Seg m 0 a prev cs) (hcs : cs ≠ []) (ha : a + span cs < 2 ^ 64) :
    ∃ b ∈ (headers a cs).getLast?, (header m b.toNat).next = 0 ∧
      b.toNat + 32 + (header m b.toNat).size.toNat = a + span cs := by
  induction cs generalizing a prev with
  | nil => exact absurd rfl hcs
  | cons c cs ih =>
      have hspan : span (c :: cs) = c.extent + span cs := rfl
      have hext : c.extent = 32 + c.size := rfl
      cases cs with
      | nil =>
          refine ⟨BitVec.ofNat 64 a, rfl, ?_⟩
          rw [h.header_first ha, toNat_ofNat_of_lt (by omega), toNat_ofNat_of_lt (by omega)]
          exact ⟨rfl, by rw [span_cons, span_nil]; omega⟩
      | cons d ds =>
          obtain ⟨b, hb, hnext, hend⟩ := ih h.2 (by simp) (by omega)
          exact ⟨b, by simpa [headers] using hb, hnext, by rw [hend]; omega⟩

theorem Seg.sizes (h : Seg m 0 a prev cs) (ha : a + span cs < 2 ^ 64) (hg : Granular cs) :
    ∀ b ∈ headers a cs, (header m b.toNat).size.toNat % 16 = 0 := by
  induction cs generalizing a prev with
  | nil => simp [headers]
  | cons c cs ih =>
      have hspan : span (c :: cs) = c.extent + span cs := rfl
      have hext : c.extent = 32 + c.size := rfl
      intro b hb
      rcases List.mem_cons.mp hb with rfl | hb
      · rw [h.header_first ha, toNat_ofNat_of_lt (by omega)]
        exact hg c List.mem_cons_self
      · exact ih h.2 (by omega) (fun d hd => hg d (List.mem_cons_of_mem _ hd)) b hb

theorem Seg.coalesced (h : Seg m 0 a prev cs) (ha : a + span cs < 2 ^ 64) (hc : Coalesced cs) :
    (headers a cs).IsChain (fun b c =>
      ¬ ((header m b.toNat).free = true ∧ (header m c.toNat).free = true)) := by
  induction cs generalizing a prev with
  | nil => exact .nil
  | cons c cs ih =>
      have hspan : span (c :: cs) = c.extent + span cs := rfl
      obtain ⟨hhead, htail⟩ := List.isChain_cons.mp hc
      refine List.isChain_cons.mpr ⟨fun b hb => ?_, ih h.2 (by omega) htail⟩
      cases cs with
      | nil => simp [headers] at hb
      | cons d ds =>
          obtain rfl : BitVec.ofNat 64 (a + c.extent) = b := by simpa [headers] using hb
          rw [h.header_first ha, h.2.header_first (by omega)]
          exact hhead d rfl

/-- The payloads in use are those of the blocks that are not free. -/
theorem Seg.inUse (h : Seg m 0 a prev cs) (ha : a + span cs < 2 ^ 64) :
    (inUse a cs).map (BitVec.ofNat 64) =
      ((headers a cs).filter (fun b => !(header m b.toNat).free)).map (· + headerSize) := by
  induction cs generalizing a prev with
  | nil => rfl
  | cons c cs ih =>
      have hspan : span (c :: cs) = c.extent + span cs := rfl
      have hptr : BitVec.ofNat 64 (a + headerBytes) = BitVec.ofNat 64 a + headerSize := by
        rw [BitVec.ofNat_add]
        rfl
      rw [inUse_cons, headers, List.map_append, ih h.2 (by omega), List.filter_cons,
        h.header_first ha]
      cases c.free <;> simp [hptr]

theorem inUse_lt {p : Nat} (h : p ∈ Heap.inUse a cs) : p ≤ a + span cs := by
  obtain ⟨before, size, after, rfl, rfl⟩ := exists_of_inUse h
  rw [span_append, span_cons, Chunk.extent]
  omega

/-- Payloads in use have distinct 64-bit addresses. -/
theorem inUse_map_nodup (ha : a + span cs < 2 ^ 64) :
    ((Heap.inUse a cs).map (BitVec.ofNat 64)).Nodup := by
  refine List.Nodup.map_on (fun x hx y hy hxy => ?_) (inUse_nodup a cs)
  have hx := inUse_lt hx
  have hy := inUse_lt hy
  exact (ofNat_eq_iff (by omega) (by omega)).mp hxy

end Rows

/-! ## The invariant -/

theorem ofNat_toNat (x : Word) : BitVec.ofNat 64 x.toNat = x := by
  rw [BitVec.ofNat_toNat, BitVec.setWidth_eq]

theorem heapVbase_pos : 0 < heapVbase.toNat := by decide

theorem heap_fits : heapVbase.toNat + heapSize.toNat < 2 ^ 64 := by decide

section Steps

variable {s s' : HeapClient} {cs : List Chunk}

theorem Represents.fits (h : Represents s cs) : heapVbase.toNat + span cs < 2 ^ 64 := by
  rw [h.spans]
  exact heap_fits

theorem Represents.ne_nil (h : Represents s cs) : cs ≠ [] := by
  rintro rfl
  exact absurd h.spans (by decide)

/-- Each block takes at least its header. -/
theorem length_le_span (cs : List Chunk) : 32 * cs.length ≤ span cs := by
  induction cs with
  | nil => simp
  | cons c cs ih =>
      have := extent_pos c
      rw [List.length_cons, span_cons]
      omega

/-- The bound of `kmalloc`'s loop is never reached. -/
theorem Represents.fuel (h : Represents s cs) : cs.length < kmallocFuel := by
  have hlen := length_le_span cs
  have hsize : heapSize.toNat = 16777216 := rfl
  have hfuel : kmallocFuel = 524289 := rfl
  rw [h.spans] at hlen
  omega

theorem represents_init (h : heapSystem.init s) :
    Represents s [⟨heapSize.toNat - 32, true⟩] := by
  obtain ⟨hlive, v, m, v', hinit⟩ := h
  unfold heapInit at hinit
  split at hinit
  · cases hinit
  · obtain ⟨hheap, -⟩ := Prod.mk.inj (Except.ok.inj hinit)
    have hmem : s.heap.mem = setNext (setPrev (setFree (setSize m heapVbase
        (heapSize - headerSize)) heapVbase true) heapVbase 0) heapVbase 0 := by
      rw [← hheap]
    constructor
    · refine ⟨?_, trivial⟩
      rw [hmem, header_setNext, header_setPrev, header_setFree, header_setSize]
      rfl
    · rw [← hheap]
    · rfl
    · intro c hc
      rw [List.mem_singleton.mp hc]
      rfl
    · exact List.isChain_singleton _
    · rw [hlive]
      exact .nil

/-- **`kmalloc` is first fit** for the rounded size. -/
theorem Represents.malloc_cases (h : Represents s cs) {size : Word} (hsize : size ≠ 0) :
    (take (alignUp size minSplitSize).toNat cs = none ∧
      kmalloc s.heap size = some (0, s.heap)) ∨
    ∃ o cs' heap' r, take (alignUp size minSplitSize).toNat cs = some (o, cs') ∧
      kmalloc s.heap size = some (r, heap') ∧
      r = BitVec.ofNat 64 (heapVbase.toNat + o + headerBytes) ∧ r ≠ 0 ∧
      Represents ⟨heap', r :: s.live⟩ cs' := by
  unfold kmalloc
  rw [if_neg hsize]
  have hround : (alignUp size minSplitSize).toNat % granule = 0 := by
    rw [show minSplitSize = 16 from rfl, alignUp_16, granule]
    omega
  have hstart : BitVec.ofNat 64 (rowStart 0 heapVbase.toNat cs) = s.heap.freeList := by
    rw [h.freeList]
    cases cs with
    | nil => exact absurd rfl h.ne_nil
    | cons => exact ofNat_toNat _
  -- the walk over headers in memory is `take` on the list of chunks
  have hrun := kmallocFrom_spec (alignUp size minSplitSize).isLt cs h.seg heapVbase_pos h.fits
    h.fuel
  rw [hstart, ofNat_toNat] at hrun
  rcases hrun with ⟨hnone, hcall⟩ | ⟨o, cs', m', htake, hcall, hseg, -⟩
  · rw [hcall]
    exact .inl ⟨hnone, rfl⟩
  · rw [hcall]
    refine .inr ⟨o, cs', _, _, htake, rfl, rfl, ?_, ?_⟩
    · have hspan := take_span htake
      obtain ⟨l₁, l₂, -, hnew⟩ := take_inUse htake heapVbase.toNat
      have hmem : heapVbase.toNat + o + headerBytes ∈ inUse heapVbase.toNat cs' := by
        rw [hnew]
        simp
      have hlt := inUse_lt hmem
      have hfits := heap_fits
      have hpos := heapVbase_pos
      rw [hspan, h.spans] at hlt
      exact ofNat_ne_zero (by omega) (by unfold headerBytes at hlt; omega)
    · obtain ⟨l₁, l₂, hold, hnew⟩ := take_inUse htake heapVbase.toNat
      constructor
      · exact hseg
      · exact h.freeList
      · rw [take_span htake, h.spans]
      · exact take_granular hround h.granular htake
      · exact take_coalesced h.coalesced htake
      · rw [hnew, List.map_append, List.map_cons]
        refine List.Perm.trans (List.Perm.cons _ ?_) List.perm_middle.symm
        rw [← List.map_append, ← hold]
        exact h.live

/-- What a call of `kmalloc` that returned `r` has done. -/
theorem Represents.malloc_result (h : Represents s cs) {size r : Word} {heap' : Heap}
    (hcall : kmalloc s.heap size = some (r, heap')) :
    (r = 0 ∧ heap' = s.heap) ∨
    ∃ o cs', r ≠ 0 ∧ take (alignUp size minSplitSize).toNat cs = some (o, cs') ∧
      r = BitVec.ofNat 64 (heapVbase.toNat + o + headerBytes) ∧
      Represents ⟨heap', r :: s.live⟩ cs' := by
  by_cases hsize : size = 0
  · unfold kmalloc at hcall
    rw [if_pos hsize] at hcall
    obtain ⟨hr, hheap⟩ := Prod.mk.inj (Option.some.inj hcall)
    exact .inl ⟨hr.symm, hheap.symm⟩
  rcases h.malloc_cases hsize with ⟨-, hcall'⟩ | ⟨o, cs', heap'', r', htake, hcall', hpos, hne, h'⟩
  · exact .inl (Prod.mk.inj (Option.some.inj (hcall.symm.trans hcall')))
  · obtain ⟨rfl, rfl⟩ := Prod.mk.inj (Option.some.inj (hcall.symm.trans hcall'))
    exact .inr ⟨o, cs', hne, htake, hpos, h'⟩

/-- `kmalloc` returns, and keeps the invariant. -/
theorem Represents.malloc (h : Represents s cs) (size : Word) :
    ∃ r heap', kmalloc s.heap size = some (r, heap') ∧
      ∃ cs', Represents ⟨heap', if r = 0 then s.live else r :: s.live⟩ cs' := by
  by_cases hsize : size = 0
  · refine ⟨0, s.heap, ?_, cs, h⟩
    unfold kmalloc
    rw [if_pos hsize]
  · rcases h.malloc_cases hsize with ⟨-, hcall⟩ | ⟨o, cs', heap', r, -, hcall, -, hne, h'⟩
    · exact ⟨0, s.heap, hcall, cs, h⟩
    · refine ⟨r, heap', hcall, cs', ?_⟩
      rw [if_neg hne]
      exact h'

/-- `kfree` of the payload after `before` releases that chunk. -/
theorem Represents.release {before after : List Chunk} {size : Nat}
    (h : Represents s (before ++ ⟨size, false⟩ :: after)) {ptr : Word}
    (hptr : ptr = BitVec.ofNat 64 (heapVbase.toNat + span before + headerBytes)) :
    Represents ⟨kfree s.heap ptr, s.live.erase ptr⟩ (release before size after) := by
  subst hptr
  have hfits := h.fits
  have hspan : span (before ++ ⟨size, false⟩ :: after) =
      span before + (32 + size) + span after := by
    rw [span_append, span_cons, Nat.add_assoc]
    rfl
  rw [hspan] at hfits
  refine ⟨?_, ?_, ?_, ?_, ?_, ?_⟩
  · exact kfree_spec h.seg heapVbase_pos (by omega)
  · rw [← h.freeList]
    unfold kfree
    split <;> rfl
  · rw [release_span, ← h.spans, hspan]
    rfl
  · exact release_granular h.granular
  · exact release_coalesced h.coalesced
  · have hlive := h.live
    rw [inUse_append, inUse_cons, if_neg (by simp), List.map_append, List.map_append] at hlive
    rw [release_inUse, List.map_append]
    have herase := (hlive.trans List.perm_middle).erase
      (BitVec.ofNat 64 (heapVbase.toNat + span before + headerBytes))
    rwa [List.erase_cons_head] at herase

/-- A live pointer is the payload of a chunk in use. -/
theorem Represents.exists_chunk (h : Represents s cs) {ptr : Word} (hptr : ptr ∈ s.live) :
    ∃ before size after, cs = before ++ ⟨size, false⟩ :: after ∧
      ptr = BitVec.ofNat 64 (heapVbase.toNat + span before + headerBytes) := by
  rw [h.live.mem_iff, List.mem_map] at hptr
  obtain ⟨x, hx, rfl⟩ := hptr
  obtain ⟨before, size, after, hsplit, rfl⟩ := exists_of_inUse hx
  exact ⟨before, size, after, hsplit, rfl⟩

/-- `NULL` is nobody's payload. -/
theorem Represents.null_not_live (h : Represents s cs) : (0 : Word) ∉ s.live := by
  rw [h.live.mem_iff, List.mem_map]
  rintro ⟨x, hx, hx0⟩
  have hfits := h.fits
  have hlo := inUse_ge hx
  have hhi := inUse_lt hx
  have hpos := heapVbase_pos
  exact ofNat_ne_zero (by omega) (by omega) hx0

/-- `kfree` keeps the invariant. -/
theorem Represents.free (h : Represents s cs) {ptr : Word} (hptr : ptr = 0 ∨ ptr ∈ s.live) :
    ∃ cs', Represents ⟨kfree s.heap ptr, s.live.erase ptr⟩ cs' := by
  rcases hptr with rfl | hlive
  · rw [List.erase_of_not_mem h.null_not_live, show kfree s.heap 0 = s.heap by simp [kfree]]
    exact ⟨cs, h⟩
  · obtain ⟨before, size, after, rfl, hptr⟩ := h.exists_chunk hlive
    exact ⟨_, h.release hptr⟩

end Steps

/-- Writing into a held payload keeps the invariant. -/
theorem Represents.write {s : HeapClient} {cs : List Chunk} (h : Represents s cs) {x : Nat}
    {b : Byte} (hx : ∃ p ∈ s.live, p.toNat ≤ x ∧
      x < p.toNat + (header s.heap.mem (p - headerSize).toNat).size.toNat) :
    Represents ⟨{ s.heap with mem := store8 s.heap.mem x b }, s.live⟩ cs := by
  obtain ⟨p, hp, hlo, hhi⟩ := hx
  have hfits := h.fits
  rw [h.live.mem_iff, List.mem_map] at hp
  obtain ⟨y, hy, rfl⟩ := hp
  obtain ⟨before, size, after, rfl, rfl⟩ := exists_of_inUse hy
  have hspan : span (before ++ ⟨size, false⟩ :: after) =
      span before + (32 + size) + span after := by
    rw [span_append, span_cons, Nat.add_assoc]
    rfl
  rw [hspan] at hfits
  have hbytes : headerBytes = 32 := rfl
  obtain ⟨q, hq⟩ := h.seg.drop
  have hsize : (header s.heap.mem
      (BitVec.ofNat 64 (heapVbase.toNat + span before)).toNat).size.toNat = size := by
    have hrow : span (⟨size, false⟩ :: after) = 32 + size + span after := rfl
    rw [hq.header_first (by omega)]
    exact toNat_ofNat_of_lt (by dsimp only; omega)
  rw [ptr_sub_headerSize, hsize, toNat_ofNat_of_lt (by omega)] at hhi
  rw [toNat_ofNat_of_lt (by omega)] at hlo
  exact { h with seg := write_payload_spec h.seg hlo (by rw [Chunk.extent, hbytes]; dsimp only; omega) }

/-- **The heap's invariant.** -/
theorem represents_invariant : heapSystem.Invariant (fun s => ∃ cs, Represents s cs) := by
  refine System.Inductive.invariant ⟨fun s h => ⟨_, represents_init h⟩, fun s e s' h hstep => ?_⟩
  obtain ⟨cs, h⟩ := h
  obtain ⟨heap', live'⟩ := s'
  cases e with
  | malloc size r =>
      obtain ⟨r', heap'', hcall, hkeeps⟩ := h.malloc size
      obtain ⟨hcall', hlive⟩ := hstep
      obtain ⟨rfl, rfl⟩ := Prod.mk.inj (Option.some.inj (hcall.symm.trans hcall'))
      dsimp only at hlive
      rwa [← hlive] at hkeeps
  | free ptr =>
      obtain ⟨hptr, hheap, hlive⟩ := hstep
      dsimp only at hheap hlive
      rw [hheap, hlive]
      exact h.free hptr
  | write x b =>
      obtain ⟨hx, hheap, hlive⟩ := hstep
      dsimp only at hheap hlive
      rw [hheap, hlive]
      exact ⟨cs, h.write hx⟩

/-- The row of chunks, read off the list. -/
theorem Represents.blockList {s : HeapClient} {cs : List Chunk} (h : Represents s cs) :
    BlockList s (headers heapVbase.toNat cs) := by
  have hfits := h.fits
  have hinUse := h.seg.inUse hfits
  have hlive := h.live
  rw [hinUse] at hlive
  constructor
  · have hreached := h.seg.reached heapVbase_pos hfits
    rw [h.freeList]
    cases cs with
    | nil => exact absurd rfl h.ne_nil
    | cons c cs => rwa [show rowStart 0 heapVbase.toNat (c :: cs) = heapVbase.toNat from rfl,
        ofNat_toNat] at hreached
  · exact h.seg.follows hfits
  · cases cs with
    | nil => exact absurd rfl h.ne_nil
    | cons c cs =>
        refine ⟨BitVec.ofNat 64 heapVbase.toNat, rfl, ofNat_toNat _, ?_⟩
        rw [h.seg.header_first hfits]
        rfl
  · rw [← h.spans]
    exact h.seg.last h.ne_nil hfits
  · exact h.seg.sizes hfits h.granular
  · exact h.seg.coalesced hfits h.coalesced
  · rw [h.live.nodup_iff]
    exact inUse_map_nodup hfits
  · intro p
    rw [hlive.mem_iff, List.mem_map]
    constructor
    · rintro ⟨b, hb, rfl⟩
      obtain ⟨hmem, hused⟩ := List.mem_filter.mp hb
      exact ⟨b, hmem, by simpa using hused, rfl⟩
    · rintro ⟨b, hmem, hused, rfl⟩
      exact ⟨b, List.mem_filter.mpr ⟨hmem, by rw [hused]; rfl⟩, rfl⟩

/-- **The heap is correct.** After any sequence of allocations of any size and
frees of live pointers, the blocks met from `free_list` fill the heap's range,
are linked both ways and coalesced, and the ones in use are the live pointers;
and the next `kmalloc` returns, whatever its size. -/
theorem heap_block_list_correct {s : HeapClient} (h : heapSystem.Reachable s) :
    (∃ bs, BlockList s bs) ∧ ∀ size, ∃ r heap', kmalloc s.heap size = some (r, heap') := by
  obtain ⟨cs, hcs⟩ := represents_invariant s h
  refine ⟨⟨_, hcs.blockList⟩, fun size => ?_⟩
  obtain ⟨r, heap', hcall, -⟩ := hcs.malloc size
  exact ⟨r, heap', hcall⟩

/-- What `heap_init` leaves on zeroed memory. -/
def freshHeap : Heap where
  mem := setNext (setPrev (setFree (setSize (fun _ => 0) heapVbase (heapSize - headerSize))
    heapVbase true) heapVbase 0) heapVbase 0
  freeList := heapVbase

/-- It has room for two blocks. -/
theorem freshHeap_twoBlocks :
    ∃ heap, heapSystem.Reachable ⟨heap, [heapVbase + 176, heapVbase + 32]⟩ := by
  have hrun : (kmalloc freshHeap 100).bind (fun r =>
      (kmalloc r.2 200).map (fun r' => (r.1, r'.1))) =
      some (heapVbase + 32, heapVbase + 176) := by decide +kernel
  obtain ⟨⟨p, h₁⟩, hcall₁, hrest⟩ := Option.bind_eq_some_iff.mp hrun
  obtain ⟨⟨q, h₂⟩, hcall₂, heq⟩ := Option.map_eq_some_iff.mp hrest
  obtain ⟨rfl, rfl⟩ := Prod.mk.inj heq
  have hinit : heapSystem.init ⟨freshHeap, []⟩ := ⟨rfl, emptyTables, fun _ => 0, _, rfl⟩
  have hstep₁ : heapSystem.step ⟨freshHeap, []⟩ (.malloc 100 (heapVbase + 32))
      ⟨h₁, [heapVbase + 32]⟩ := ⟨hcall₁, by rw [if_neg (by decide)]⟩
  have hstep₂ : heapSystem.step ⟨h₁, [heapVbase + 32]⟩ (.malloc 200 (heapVbase + 176))
      ⟨h₂, [heapVbase + 176, heapVbase + 32]⟩ := ⟨hcall₂, by rw [if_neg (by decide)]⟩
  exact ⟨h₂, .step (.step (.init hinit) hstep₁) hstep₂⟩

/-- The fresh heap after one allocation. -/
theorem heap_block_list_correct_freshHeap :
    ∃ s : HeapClient, s.live = [heapVbase + headerSize] ∧ (∃ bs, BlockList s bs) ∧
      ∃ r heap', kmalloc s.heap 0xffffffffffffffff = some (r, heap') := by
  have hinit : heapSystem.init ⟨freshHeap, []⟩ := ⟨rfl, emptyTables, fun _ => 0, _, rfl⟩
  obtain ⟨⟨r, heap'⟩, hcall, rfl⟩ := Option.map_eq_some_iff.mp
    (by decide +kernel : (kmalloc freshHeap 100).map Prod.fst = some (heapVbase + headerSize))
  have hstep : heapSystem.step ⟨freshHeap, []⟩ (.malloc 100 (heapVbase + headerSize))
      ⟨heap', [heapVbase + headerSize]⟩ := ⟨hcall, by rw [if_neg (by decide)]⟩
  have h := heap_block_list_correct (.step (.init hinit) hstep)
  exact ⟨_, rfl, h.1, h.2 _⟩

end QuinKernel
