import QuinKernel.Heap.Order

/-!
# What `kmalloc` returns

`kmalloc` rounds the size up to a multiple of 16 in 64-bit arithmetic. Block
sizes are such multiples too, so the rounding changes nothing about which
blocks are large enough, as long as it does not wrap. Sizes above
`2 ^ 64 - 16` wrap to 0, and any free block will do (`Rounds`).

`askedSystem` is the heap with a record of the sizes its clients asked for.
-/

namespace QuinKernel

open Machine Heap

/-- The heap, its clients, and the size last asked for at each pointer. -/
structure AskedClient where
  client : HeapClient
  asked : Word → Word

/-- The heap with any client, and what was asked. -/
def askedSystem : System AskedClient HeapCall where
  init s := heapSystem.init s.client
  step s e s' := heapSystem.step s.client e s'.client ∧ s'.asked = match e with
    | .malloc size r => Function.update s.asked r size
    | _ => s.asked

/-- `n` bytes from `a` and `k` bytes from `b` have none in common. -/
def Apart (a n b k : Nat) : Prop := a + n ≤ b ∨ b + k ≤ a

/-- The bytes of the block that `p` is the payload of. -/
def payload (h : Heap) (p : Word) : Nat := (header h.mem (p - headerSize).toNat).size.toNat

/-- No free block has `size` bytes. -/
def NoRoom (h : Heap) (bs : List Word) (size : Word) : Prop :=
  ∀ b ∈ bs, (header h.mem b.toNat).free = true →
    (header h.mem b.toNat).size.toNat < size.toNat

/-- `kmalloc(size)` has returned `r`, the blocks having been `bs`. -/
structure Allocated (s : AskedClient) (bs : List Word) (size r : Word) (heap' : Heap) : Prop where
  aligned : r.toNat % 16 = 0
  lowest : ∃ b ∈ bs, (header s.client.heap.mem b.toNat).free = true ∧
    size.toNat ≤ (header s.client.heap.mem b.toNat).size.toNat ∧
    (∀ c ∈ bs, (header s.client.heap.mem c.toNat).free = true →
      size.toNat ≤ (header s.client.heap.mem c.toNat).size.toNat → b.toNat ≤ c.toNat) ∧
    r.toNat = b.toNat + 32
  inHeap : heapVbase.toNat ≤ r.toNat ∧ r.toNat + size.toNat ≤ heapVbase.toNat + heapSize.toNat
  headers : ∃ bs', Reached heap'.mem heap'.freeList bs' ∧
    ∀ c ∈ bs', Apart r.toNat size.toNat c.toNat 32
  others : ∀ p ∈ s.client.live, (s.asked p).toNat ≤ payload heap' p ∧
    Apart r.toNat size.toNat p.toNat (payload heap' p)

/-- `kmalloc(size)` does what it is for. -/
def KmallocMeets (s : AskedClient) (size : Word) : Prop :=
  ∃ bs r heap', Reached s.client.heap.mem s.client.heap.freeList bs ∧
    kmalloc s.client.heap size = some (r, heap') ∧
    (r = 0 ↔ size = 0 ∨ NoRoom s.client.heap bs size) ∧
    (r = 0 → heap' = s.client.heap) ∧
    (r ≠ 0 → Allocated s bs size r heap')

/-- The size rounds up without wrapping, or no block is free. -/
def Rounds (h : Heap) (size : Word) : Prop :=
  size.toNat ≤ 2 ^ 64 - 16 ∨
    ∃ bs, Reached h.mem h.freeList bs ∧ ∀ b ∈ bs, (header h.mem b.toNat).free = false

/-- A call whose size rounds. -/
def CallRounds (s : AskedClient) : HeapCall → Prop
  | .malloc size _ => Rounds s.client.heap size
  | _ => True

/-! ## Blocks and chunks -/

theorem Reached.unique {m : Mem} {bs bs' : List Word} :
    ∀ {node : Word}, Reached m node bs → Reached m node bs' → bs = bs' := by
  induction bs generalizing bs' with
  | nil =>
      intro node h h'
      cases bs' with
      | nil => rfl
      | cons b' bs' => exact absurd h h'.1
  | cons b bs ih =>
      intro node h h'
      cases bs' with
      | nil => exact absurd h' h.1
      | cons b' bs' => rw [h.2.1, h'.2.1, ih h.2.2 h'.2.2]

theorem mem_headers {a : Nat} {b : Word} {cs : List Chunk} (h : b ∈ headers a cs) :
    ∃ before c after, cs = before ++ c :: after ∧ b = BitVec.ofNat 64 (a + span before) := by
  induction cs generalizing a with
  | nil => cases h
  | cons c cs ih =>
      rcases List.mem_cons.mp h with rfl | h
      · exact ⟨[], c, cs, rfl, rfl⟩
      · obtain ⟨before, d, after, rfl, rfl⟩ := ih h
        exact ⟨c :: before, d, after, rfl, by rw [span_cons, Nat.add_assoc]⟩

theorem headers_mem (a : Nat) (before : List Chunk) (c : Chunk) (after : List Chunk) :
    BitVec.ofNat 64 (a + span before) ∈ headers a (before ++ c :: after) := by
  induction before generalizing a with
  | nil => exact List.mem_cons_self
  | cons d before ih =>
      rw [span_cons, ← Nat.add_assoc]
      exact List.mem_cons_of_mem _ (ih _)

section Blocks

variable {s : HeapClient} {before after : List Chunk} {c : Chunk}

/-- A chunk lies in the heap's range. -/
theorem Represents.chunk_le (h : Represents s (before ++ c :: after)) :
    heapVbase.toNat + span before + c.extent ≤ heapVbase.toNat + heapSize.toNat := by
  have hspans := h.spans
  rw [span_append, span_cons] at hspans
  omega

/-- The address of a chunk's header. -/
theorem Represents.toNat_header (h : Represents s (before ++ c :: after)) :
    (BitVec.ofNat 64 (heapVbase.toNat + span before)).toNat = heapVbase.toNat + span before := by
  have hle := h.chunk_le
  have hfits := heap_fits
  exact toNat_ofNat_of_lt (by omega)

/-- The address of a chunk's payload. -/
theorem Represents.toNat_payload (h : Represents s (before ++ c :: after)) :
    (BitVec.ofNat 64 (heapVbase.toNat + span before + headerBytes)).toNat =
      heapVbase.toNat + span before + 32 := by
  have hle := h.chunk_le
  have hfits := heap_fits
  unfold Chunk.extent headerBytes at *
  exact toNat_ofNat_of_lt (by omega)

/-- The header of a chunk holds its size and whether it is free. -/
theorem Represents.header_at (h : Represents s (before ++ c :: after)) :
    (header s.heap.mem (BitVec.ofNat 64 (heapVbase.toNat + span before)).toNat).free = c.free ∧
    (header s.heap.mem
      (BitVec.ofNat 64 (heapVbase.toNat + span before)).toNat).size.toNat = c.size := by
  have hle := h.chunk_le
  have hspans := h.spans
  have hfits := heap_fits
  rw [span_append, span_cons] at hspans
  obtain ⟨p, hseg⟩ := h.seg.drop before
  rw [hseg.header_first (by rw [span_cons]; omega)]
  refine ⟨rfl, toNat_ofNat_of_lt ?_⟩
  unfold Chunk.extent at hle
  omega

/-- The bytes of a live pointer's block. -/
theorem Represents.payload_at (h : Represents s (before ++ c :: after)) :
    payload s.heap (BitVec.ofNat 64 (heapVbase.toNat + span before + headerBytes)) = c.size := by
  unfold payload
  rw [ptr_sub_headerSize]
  exact h.header_at.2

theorem Represents.eq_headers {cs : List Chunk} {bs : List Word} (h : Represents s cs)
    (hbs : Reached s.heap.mem s.heap.freeList bs) : bs = headers heapVbase.toNat cs :=
  hbs.unique h.reached

/-- No chunk is free when no block is. -/
theorem Represents.noRoom_iff {cs : List Chunk} (h : Represents s cs) (size : Word) :
    NoRoom s.heap (headers heapVbase.toNat cs) size ↔
      ∀ d ∈ cs, d.free = true → d.size < size.toNat := by
  constructor
  · intro hroom d hd hfree
    obtain ⟨before, after, rfl⟩ := List.append_of_mem hd
    have hat := h.header_at
    have hlt := hroom _ (headers_mem heapVbase.toNat before d after)
    rw [hat.1, hat.2] at hlt
    exact hlt hfree
  · intro hall b hb hfree
    obtain ⟨before, d, after, rfl, rfl⟩ := mem_headers hb
    have hat := h.header_at
    rw [hat.1] at hfree
    rw [hat.2]
    exact hall d (by simp) hfree

/-- A chunk in use, by address and size. -/
theorem used_mem (a : Nat) (before : List Chunk) (k : Nat) (after : List Chunk) :
    (a + span before + headerBytes, k) ∈ used a (before ++ ⟨k, false⟩ :: after) := by
  rw [used_append, used_cons]
  simp

/-- A chunk in use is live. -/
theorem Represents.used_live {cs : List Chunk} (h : Represents s cs) {u : Nat × Nat}
    (hu : u ∈ used heapVbase.toNat cs) : BitVec.ofNat 64 u.1 ∈ s.live := by
  rw [h.live.mem_iff, inUse_eq_used, List.map_map]
  exact List.mem_map_of_mem hu

/-- `Rounds`, on the chunks. -/
theorem Represents.rounds_iff {cs : List Chunk} (h : Represents s cs) (size : Word) :
    Rounds s.heap size ↔ size.toNat ≤ 2 ^ 64 - 16 ∨ ∀ d ∈ cs, d.free = false := by
  refine or_congr_right ⟨?_, ?_⟩
  · rintro ⟨bs, hbs, hused⟩ d hd
    obtain rfl := h.eq_headers hbs
    obtain ⟨before, after, rfl⟩ := List.append_of_mem hd
    have hfree := hused _ (headers_mem heapVbase.toNat before d after)
    rwa [h.header_at.1] at hfree
  · intro hused
    refine ⟨_, h.reached, fun b hb => ?_⟩
    obtain ⟨before, d, after, rfl, rfl⟩ := mem_headers hb
    rw [h.header_at.1]
    exact hused d (by simp)

end Blocks

/-- Rounding up without wrapping. -/
theorem alignUp_of_le {size : Word} (h : size.toNat ≤ 2 ^ 64 - 16) :
    (alignUp size minSplitSize).toNat = (size.toNat + 15) / 16 * 16 := by
  rw [show minSplitSize = 16 from rfl, alignUp_16, Nat.mod_eq_of_lt (by omega)]

/-- Above, the size wraps to 0. -/
theorem alignUp_of_gt {size : Word} (h : 2 ^ 64 - 16 < size.toNat) :
    (alignUp size minSplitSize).toNat = 0 := by
  have hlt := size.isLt
  rw [show minSplitSize = 16 from rfl, alignUp_16]
  omega

/-- For a multiple of 16, rounding the size up makes no difference. -/
theorem alignUp_le_iff {size : Word} {n : Nat} (h : size.toNat ≤ 2 ^ 64 - 16)
    (hn : n % granule = 0) : (alignUp size minSplitSize).toNat ≤ n ↔ size.toNat ≤ n := by
  rw [alignUp_of_le h]
  unfold granule at hn
  omega

/-! ## The sizes asked for -/

/-- Every block in use has the bytes that were asked for. -/
def AskedFits (s : AskedClient) (cs : List Chunk) : Prop :=
  ∀ u ∈ used heapVbase.toNat cs, (s.asked (BitVec.ofNat 64 u.1)).toNat ≤ u.2

section Steps

variable {s s' : AskedClient} {cs : List Chunk}

/-- A rounded size is no less than the size, when a chunk is free. -/
theorem Represents.le_alignUp (h : Represents s.client cs) {size : Word}
    (hrounds : Rounds s.client.heap size) {d : Chunk} (hd : d ∈ cs) (hfree : d.free = true) :
    size.toNat ≤ 2 ^ 64 - 16 ∧ size.toNat ≤ (alignUp size minSplitSize).toNat := by
  rcases (h.rounds_iff size).mp hrounds with hle | hused
  · refine ⟨hle, ?_⟩
    rw [alignUp_of_le hle]
    omega
  · rw [hused d hd] at hfree
    cases hfree

/-- A call whose size rounds is given the bytes it asks for. -/
theorem AskedFits.malloc (h : Represents s.client cs) (hfits : AskedFits s cs) {size r : Word}
    (hrounds : Rounds s.client.heap size) (hstep : askedSystem.step s (.malloc size r) s') :
    ∃ cs', Represents s'.client cs' ∧ AskedFits s' cs' := by
  obtain ⟨⟨hcall, hlive⟩, hasked⟩ := hstep
  obtain ⟨⟨heap', live'⟩, asked'⟩ := s'
  dsimp only at hcall hlive hasked
  rcases h.malloc_result hcall with ⟨rfl, rfl⟩ | ⟨o, cs', hne, htake, hr, h'⟩
  · rw [if_pos rfl] at hlive
    subst hlive
    refine ⟨cs, h, fun u hu => ?_⟩
    have hne : BitVec.ofNat 64 u.1 ≠ 0 := fun h0 => h.null_not_live (h0 ▸ h.used_live hu)
    show (asked' _).toNat ≤ _
    rw [hasked, Function.update_of_ne hne]
    exact hfits u hu
  · rw [if_neg hne] at hlive
    subst hlive
    refine ⟨cs', h', ?_⟩
    obtain ⟨l₁, l₂, n, hold, hnew, hn⟩ := take_used htake heapVbase.toNat
    obtain ⟨before, c, after, hcs, hfree, -, -, -, -⟩ := take_firstFit htake
    have hround := (h.le_alignUp hrounds (d := c) (by rw [hcs]; simp) hfree).2
    -- the new payload is none of the old ones
    have hnodup : ((inUse heapVbase.toNat cs').map (BitVec.ofNat 64)).Nodup :=
      inUse_map_nodup h'.fits
    rw [inUse_eq_used, hnew, List.map_map, List.map_append, List.map_cons, List.nodup_middle,
      List.nodup_cons, ← List.map_append, ← hold] at hnodup
    intro u hu
    show (asked' _).toNat ≤ _
    rw [hnew, List.mem_append, List.mem_cons, or_left_comm, ← List.mem_append, ← hold] at hu
    rcases hu with rfl | hu
    · rw [hasked, ← hr, Function.update_self]
      exact hround.trans hn
    · have hother : BitVec.ofNat 64 u.1 ≠ r := by
        intro heq
        refine hnodup.1 (List.mem_map.mpr ⟨u, hu, ?_⟩)
        rw [Function.comp_apply, heq, hr]
        rfl
      rw [hasked, Function.update_of_ne hother]
      exact hfits u hu

/-- **Live allocations have the bytes they asked for**, in every run whose
calls ask for sizes that round. -/
theorem asked_invariant :
    (askedSystem.restrict CallRounds).Invariant
      (fun s => ∃ cs, Represents s.client cs ∧ AskedFits s cs) := by
  refine System.Inductive.invariant ⟨fun s h => ⟨_, represents_init h, ?_⟩, ?_⟩
  · intro u hu
    cases hu
  · rintro s e s' ⟨cs, h, hfits⟩ ⟨hrounds, hstep⟩
    cases e with
    | malloc size r => exact AskedFits.malloc h hfits hrounds hstep
    | free ptr =>
        obtain ⟨⟨hptr, hheap, hlive⟩, hasked⟩ := hstep
        obtain ⟨⟨heap', live'⟩, asked'⟩ := s'
        dsimp only at hheap hlive hasked
        subst hheap hlive hasked
        by_cases hmem : ptr ∈ s.client.live
        · obtain ⟨cs', h', hused⟩ := h.free_used hmem
          refine ⟨cs', h', fun u hu => hfits u ?_⟩
          rw [hused] at hu
          exact (List.mem_filter.mp hu).1
        · obtain rfl := hptr.resolve_right hmem
          rw [List.erase_of_not_mem hmem, show kfree s.client.heap 0 = s.client.heap by simp [kfree]]
          exact ⟨cs, h, hfits⟩
    | write x b =>
        obtain ⟨⟨hx, hheap, hlive⟩, hasked⟩ := hstep
        obtain ⟨⟨heap', live'⟩, asked'⟩ := s'
        dsimp only at hheap hlive hasked
        subst hheap hlive hasked
        exact ⟨cs, h.write hx, hfits⟩

/-- The chunk taken, its payload cut to size, is free of every header and of
every other payload. -/
theorem Represents.allocated (h : Represents s.client cs) (hfits : AskedFits s cs) {size r : Word}
    (hle : size.toNat ≤ 2 ^ 64 - 16) {o : Nat} {cs' : List Chunk} {heap' : Heap}
    (htake : take (alignUp size minSplitSize).toNat cs = some (o, cs'))
    (hr : r = BitVec.ofNat 64 (heapVbase.toNat + o + headerBytes))
    (h' : Represents ⟨heap', r :: s.client.live⟩ cs') :
    Allocated s (headers heapVbase.toNat cs) size r heap' := by
  obtain ⟨before, c, after, rfl, hfree, hfit, hfirst, rfl, rfl⟩ := take_firstFit htake
  obtain ⟨n, rest, hcarve, hn, hnc, -⟩ := carve_first hfit
  rw [hcarve, List.cons_append] at h'
  have hsize : size.toNat ≤ n := by
    rw [alignUp_of_le hle] at hn
    omega
  have hrNat : r.toNat = heapVbase.toNat + span before + 32 := by rw [hr, h.toNat_payload]
  have hlast := h.chunk_le
  have hext : c.extent = 32 + c.size := rfl
  have hat := h.header_at
  constructor
  · -- every chunk before takes a multiple of 16 bytes
    have hspan : ∀ ds : List Chunk, Granular ds → span ds % 16 = 0 := by
      intro ds hds
      induction ds with
      | nil => rfl
      | cons d ds ih =>
          have hd : d.size % 16 = 0 := hds d List.mem_cons_self
          have hrest := ih (fun e he => hds e (List.mem_cons_of_mem _ he))
          rw [span_cons, Chunk.extent, headerBytes]
          omega
    have hbefore := hspan before (fun d hd => h.granular d (by simp [hd]))
    have hbase : heapVbase.toNat % 16 = 0 := by decide
    omega
  · refine ⟨_, headers_mem heapVbase.toNat before c after, hat.1.trans hfree, ?_, ?_, ?_⟩
    · rw [hat.2]
      omega
    · -- first fit: a free chunk before this one is too small
      intro b hb hbfree hbsize
      obtain ⟨before', d, after', hsplit, rfl⟩ := mem_headers hb
      rw [hsplit] at h
      have hat' := h.header_at
      rw [hat'.1] at hbfree
      rw [hat'.2] at hbsize
      have hd := h.granular d (by simp)
      rw [h.toNat_header, (hsplit ▸ h : Represents s.client (before ++ c :: after)).toNat_header]
      rcases splits_apart hsplit with ⟨rfl, -⟩ | hlater | ⟨hmem, -⟩
      · exact Nat.le_refl _
      · omega
      · exact absurd ⟨hbfree, (alignUp_le_iff hle hd).mpr hbsize⟩ (hfirst d hmem)
    · rw [hrNat, h.toNat_header]
  · omega
  · refine ⟨_, h'.reached, fun b hb => ?_⟩
    obtain ⟨before', d, after', hsplit, rfl⟩ := mem_headers hb
    have hd : d.extent = 32 + d.size := rfl
    have hfirst' : Chunk.extent ⟨n, false⟩ = 32 + n := rfl
    unfold Apart
    rw [hsplit] at h'
    rw [h'.toNat_header, hrNat]
    rcases splits_apart hsplit with ⟨rfl, -⟩ | hlater | ⟨-, hearlier⟩
    · omega
    · omega
    · omega
  · intro p hp
    have hnodup : (r :: s.client.live).Nodup := by
      rw [h'.live.nodup_iff]
      exact inUse_map_nodup h'.fits
    have hne : p ≠ r := fun heq => (List.nodup_cons.mp hnodup).1 (heq ▸ hp)
    obtain ⟨before', k, after', hsplit, hpos⟩ := h'.exists_chunk (List.mem_cons_of_mem r hp)
    -- a payload handed out before belongs to a chunk that was in use then
    have hused : (heapVbase.toNat + span before' + headerBytes, k) ∈
        used heapVbase.toNat (before ++ c :: after) := by
      obtain ⟨l₁, l₂, k', hold, hnew, -⟩ := take_used htake heapVbase.toNat
      have hmem := used_mem heapVbase.toNat before' k after'
      rw [← hsplit, ← List.cons_append, ← hcarve, hnew, List.mem_append, List.mem_cons,
        or_left_comm, ← List.mem_append, ← hold] at hmem
      rcases hmem with heq | hmem
      · exact absurd (by rw [hpos, hr, (Prod.mk.inj heq).1]) hne
      · exact hmem
    have hasked := hfits _ hused
    rw [hsplit] at h'
    have hpNat := h'.toNat_payload
    have hk : Chunk.extent ⟨k, false⟩ = 32 + k := rfl
    have hfirst' : Chunk.extent ⟨n, false⟩ = 32 + n := rfl
    have hpayload := h'.payload_at
    rw [← hpos] at hasked hpNat hpayload
    unfold Apart
    rw [show payload heap' p = k from hpayload]
    refine ⟨hasked, ?_⟩
    rw [hpNat, hrNat]
    rcases splits_apart hsplit with ⟨rfl, -⟩ | hlater | ⟨-, hearlier⟩
    · exact absurd (by rw [hpos, hr]) hne
    · omega
    · omega

/-- **A size that wraps is answered wrongly** when a block is free. -/
theorem Represents.not_kmallocMeets (h : Represents s.client cs) {size : Word}
    (hwraps : ¬Rounds s.client.heap size) : ¬KmallocMeets s size := by
  rintro ⟨bs, r, heap', hbs, hcall, hnull, -, -⟩
  obtain rfl := h.eq_headers hbs
  rw [h.rounds_iff, not_or, Nat.not_le] at hwraps
  obtain ⟨hgt, hfree⟩ := hwraps
  have hsize : size ≠ 0 := by
    rintro rfl
    exact absurd hgt (by decide)
  rcases h.malloc_cases hsize with ⟨hnone, -⟩ | ⟨o, cs', heap'', r', -, hcall', -, hne, -⟩
  · rw [alignUp_of_gt hgt, take_eq_none] at hnone
    exact hfree (fun d hd => by simpa using hnone d hd)
  · obtain ⟨rfl, -⟩ := Prod.mk.inj (Option.some.inj (hcall.symm.trans hcall'))
    refine hne (hnull.mpr (.inr ((h.noRoom_iff size).mpr fun d hd _ => ?_)))
    obtain ⟨before, after, rfl⟩ := List.append_of_mem hd
    have hle := h.chunk_le
    have hext : d.extent = 32 + d.size := rfl
    have hheap : heapSize.toNat = 16777216 := rfl
    omega

end Steps

/-- **What `kmalloc` returns.** In every state that calls with sizes that round
lead to, `kmalloc(size)` returns `NULL` exactly when the size is 0 or no free
block is as large, and otherwise 16-byte-aligned memory at the start of the
lowest free block that is large enough, apart from every header and every live
allocation, if and only if the size rounds up without wrapping or no block is
free. -/
theorem kmalloc_meets_iff {s : AskedClient}
    (h : (askedSystem.restrict CallRounds).Reachable s) (size : Word) :
    KmallocMeets s size ↔ Rounds s.client.heap size := by
  obtain ⟨cs, hcs, hfits⟩ := asked_invariant s h
  refine ⟨fun hmeets => ?_, fun hrounds => ?_⟩
  · by_contra hwraps
    exact hcs.not_kmallocMeets hwraps hmeets
  by_cases hsize : size = 0
  · refine ⟨_, 0, s.client.heap, hcs.reached, ?_, iff_of_true rfl (.inl hsize), fun _ => rfl,
      fun hne => absurd rfl hne⟩
    unfold kmalloc
    rw [if_pos hsize]
  · rcases hcs.malloc_cases hsize with ⟨hnone, hcall⟩ | ⟨o, cs', heap', r, htake, hcall, hr, hne, h'⟩
    · refine ⟨_, 0, s.client.heap, hcs.reached, hcall, iff_of_true rfl (.inr ?_), fun _ => rfl,
        fun hne => absurd rfl hne⟩
      rw [hcs.noRoom_iff]
      intro d hd hfree
      have hfit := take_eq_none.mp hnone d hd
      obtain ⟨hle, -⟩ := hcs.le_alignUp hrounds hd hfree
      rw [alignUp_le_iff hle (hcs.granular d hd)] at hfit
      by_contra hlt
      exact hfit ⟨hfree, by omega⟩
    · obtain ⟨before, c, after, hsplit, hfree, hfit, -, -, -⟩ := take_firstFit htake
      have hc : c ∈ cs := by rw [hsplit]; simp
      obtain ⟨hle, -⟩ := hcs.le_alignUp hrounds hc hfree
      refine ⟨_, r, heap', hcs.reached, hcall, iff_of_false hne ?_, fun h0 => absurd h0 hne,
        fun _ => hcs.allocated hfits hle htake hr h'⟩
      rintro (h0 | hroom)
      · exact hsize h0
      · have hlt := (hcs.noRoom_iff size).mp hroom c hc hfree
        have hge := (alignUp_le_iff hle (hcs.granular c hc)).mp hfit
        omega

/-- 100 bytes of a fresh heap. -/
theorem kmalloc_meets_freshHeap : KmallocMeets ⟨⟨freshHeap, []⟩, fun _ => 0⟩ 100 :=
  (kmalloc_meets_iff (.init ⟨rfl, emptyTables, fun _ => 0, _, rfl⟩) 100).mpr (.inl (by decide))

/-- `2 ^ 64 - 1` bytes of a fresh heap are granted. -/
theorem kmalloc_wraps : ¬∀ s, askedSystem.Reachable s → ∀ size, KmallocMeets s size := by
  intro h
  have hinit : askedSystem.init ⟨⟨freshHeap, []⟩, fun _ => 0⟩ :=
    ⟨rfl, emptyTables, fun _ => 0, _, rfl⟩
  have hcs := represents_init hinit
  refine hcs.not_kmallocMeets ?_ (h _ (.init hinit) 0xffffffffffffffff)
  rw [hcs.rounds_iff]
  simp

end QuinKernel
