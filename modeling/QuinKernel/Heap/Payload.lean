import QuinKernel.Heap.Malloc

/-!
# Payloads are left alone

`kmalloc` and `kfree` write through header pointers they read from headers.
What they write to is bounded here by the row of chunks: a header field lands
in a header of the row (`InHeader`) or, where `kmalloc` makes a new header,
inside the free chunk it splits (`Own`). No byte of a payload in use is either
(`not_own_of_used`), so every allocation keeps its bytes through every call
made for another one (`heap_keeps_payloads`).
-/

namespace QuinKernel

open Machine Heap

/-- `x` is a byte of the header of one of the blocks `bs`, or inside one that is
free. -/
def HeapOwn (h : Heap) (bs : List Word) (x : Nat) : Prop :=
  ∃ b ∈ bs, b.toNat ≤ x ∧ (x < b.toNat + 32 ∨
    (header h.mem b.toNat).free = true ∧ x < b.toNat + 32 + (header h.mem b.toNat).size.toNat)

/-- The block of `p` has the size it had, and every byte from `p` to its end. -/
structure KeepsPayload (h h' : Heap) (p : Word) : Prop where
  size : payload h' p = payload h p
  bytes : ∀ x, p.toNat ≤ x → x < p.toNat + payload h p → h'.mem x = h.mem x

/-- `x` is the byte a client writes itself. -/
def HeapCall.Writes : HeapCall → Nat → Prop
  | .write y _, x => x = y
  | _, _ => False

/-! ## What the writers touch -/

section Writers

variable {m : Mem} {a prev n size : Nat} {c : Chunk} {cs before after : List Chunk}

/-- `if (next != NULL) next->prev = node` writes to the header the row starts with. -/
theorem relink_agreeBut (m : Mem) (ha : a + span cs < 2 ^ 64) (p : Word) :
    AgreeBut (InHeader a cs) m (if BitVec.ofNat 64 (rowStart 0 a cs) ≠ 0 then
      setPrev m (BitVec.ofNat 64 (rowStart 0 a cs)) p else m) := by
  cases cs with
  | nil =>
      rw [if_neg (by simp [rowStart])]
      exact .refl _ _
  | cons c cs =>
      have hext := extent_pos c
      rw [span_cons] at ha
      split
      · refine (setPrev_agreeOff m _ p).agreeBut (fun x hlo hhi => .inl ?_)
        rw [show rowStart 0 a (c :: cs) = a from rfl, toNat_ofNat_of_lt (by omega)] at hlo hhi
        exact ⟨hlo, hhi⟩
      · exact .refl _ _

/-- A split writes to three headers, one of them new and inside the free block. -/
theorem splitBlock_agreeBut (h : Seg m 0 a prev (c :: cs)) (hn : n + 48 ≤ c.size)
    (hfree : c.free = true) (ha : a + span (c :: cs) < 2 ^ 64) :
    AgreeBut (Own a (c :: cs)) m (splitBlock m (BitVec.ofNat 64 a) (BitVec.ofNat 64 n)
      (BitVec.ofNat 64 (c.size - n))) := by
  rw [splitBlock_eq h hn ha]
  rw [span_cons] at ha
  have hext : c.extent = 32 + c.size := rfl
  set A := BitVec.ofNat 64 a with hA
  set N := BitVec.ofNat 64 (a + 32 + n) with hN
  have haddr : A.toNat = a := toNat_ofNat_of_lt (by omega)
  have hnewAddr : N.toNat = a + 32 + n := toNat_ofNat_of_lt (by omega)
  have hnode : ∀ x, A.toNat ≤ x → x < A.toNat + 32 → Own a (c :: cs) x := by
    intro x hlo hhi
    rw [haddr] at hlo hhi
    exact .inl ⟨hlo, .inl hhi⟩
  have hnew : ∀ x, N.toNat ≤ x → x < N.toNat + 32 → Own a (c :: cs) x := by
    intro x hlo hhi
    rw [hnewAddr] at hlo hhi
    exact .inl ⟨by omega, .inr ⟨hfree, by omega⟩⟩
  have hlater : ∀ x, InHeader (a + c.extent) cs x → Own a (c :: cs) x := fun x hx => .inr hx.own
  have hnext := fun m' : Mem => (relink_agreeBut m' (by omega) N).mono hlater
  refine .trans (.trans (.trans ?_ (hnext _)) ((setSize_agreeOff _ A _).agreeBut hnode))
    ((setNext_agreeOff _ A _).agreeBut hnode)
  exact (((setSize_agreeOff _ N _).agreeBut hnew).trans ((setFree_agreeOff _ N _).agreeBut hnew)).trans
    (((setPrev_agreeOff _ N _).agreeBut hnew).trans ((setNext_agreeOff _ N _).agreeBut hnew))

theorem carveBlock_agreeBut (h : Seg m 0 a prev (c :: cs)) (hfree : c.free = true)
    (ha : a + span (c :: cs) < 2 ^ 64) :
    AgreeBut (Own a (c :: cs)) m (carveBlock m a n c.size) := by
  have hspan : span (c :: cs) = c.extent + span cs := rfl
  have hext := extent_pos c
  have hmark : ∀ m', AgreeBut (Own a (c :: cs)) m' (setFree m' (BitVec.ofNat 64 a) false) := by
    intro m'
    refine (setFree_agreeOff m' _ false).agreeBut (fun x hlo hhi => ?_)
    rw [toNat_ofNat_of_lt (by omega)] at hlo hhi
    exact .inl ⟨hlo, .inl hhi⟩
  unfold carveBlock
  split
  · next hroom =>
    unfold headerBytes granule at hroom
    exact (splitBlock_agreeBut h (by omega) hfree ha).trans (hmark _)
  · exact hmark m

/-- The loop of `kmalloc` writes to headers and to the free block it uses. -/
theorem kmallocFrom_agreeBut (hn : n < 2 ^ 64) {r : Word} {m' : Mem} :
    ∀ (cs : List Chunk) {a prev fuel : Nat}, Seg m 0 a prev cs → 0 < a → a + span cs < 2 ^ 64 →
    kmallocFrom m (BitVec.ofNat 64 n) fuel (BitVec.ofNat 64 (rowStart 0 a cs)) = some (r, m') →
    AgreeBut (Own a cs) m m'
  | _, _, _, 0, _, _, _, hcall => by simp [kmallocFrom] at hcall
  | [], _, _, fuel + 1, _, _, _, hcall => by
    obtain ⟨-, rfl⟩ : (0 : Word) = r ∧ m = m' := by simpa [kmallocFrom, rowStart] using hcall
    exact .refl _ _
  | c :: cs, a, prev, fuel + 1, h, ha0, ha, hcall => by
    have hspan : span (c :: cs) = c.extent + span cs := rfl
    rw [show rowStart 0 a (c :: cs) = a from rfl] at hcall
    by_cases hfit : c.free = true ∧ n ≤ c.size
    · rw [kmallocFrom_fit h hn ha0 ha hfit.1 hfit.2] at hcall
      obtain ⟨-, rfl⟩ := Prod.mk.inj (Option.some.inj hcall)
      exact carveBlock_agreeBut h hfit.1 ha
    · rw [kmallocFrom_skip h hn ha0 ha hfit] at hcall
      exact (kmallocFrom_agreeBut hn cs h.2 (by omega) (by omega) hcall).mono (fun x hx => .inr hx)

/-- A merge writes to the header that stays and to the one behind it. -/
theorem joinRow_agreeBut {ds : List Chunk} {W : Nat → Prop} (ha : a + (32 + n) + span ds < 2 ^ 64)
    (hself : ∀ x, a ≤ x → x < a + 32 → W x) (hds : ∀ x, InHeader (a + (32 + n)) ds x → W x) :
    AgreeBut W m (joinRow m a n ds) := by
  have hnode : ∀ x, (BitVec.ofNat 64 a).toNat ≤ x → x < (BitVec.ofNat 64 a).toNat + 32 → W x := by
    rw [toNat_ofNat_of_lt (by omega)]
    exact hself
  exact (((setSize_agreeOff _ _ _).agreeBut hnode).trans
    ((setNext_agreeOff _ _ _).agreeBut hnode)).trans ((relink_agreeBut _ ha _).mono hds)

/-- The forward merge writes to headers. -/
theorem mergeNext_agreeBut (h : Seg m 0 a prev (⟨size, true⟩ :: after))
    (ha : a + (32 + size) + span after < 2 ^ 64) :
    AgreeBut (InHeader a (⟨size, true⟩ :: after)) m (mergeNext m (BitVec.ofNat 64 a)) := by
  cases after with
  | nil =>
      rw [mergeNext_used h (by simp) ha]
      exact .refl _ _
  | cons d ds =>
      cases hfree : d.free
      · rw [mergeNext_used h (by simp [hfree]) ha]
        exact .refl _ _
      · rw [mergeNext_free h hfree ha]
        have hdext : d.extent = 32 + d.size := rfl
        have hend : a + (32 + (size + d.extent)) = a + (32 + size) + d.extent := by omega
        rw [span_cons] at ha
        refine joinRow_agreeBut (by omega) (fun x hlo hhi => .inl ⟨hlo, hhi⟩) (fun x hx => ?_)
        rw [hend] at hx
        exact .inr (.inr hx)

/-- The backward merge writes to headers. -/
theorem mergePrev_agreeBut {rest : List Chunk} : ∀ (before : List Chunk) {a prev : Nat},
    Seg m 0 a prev (before ++ ⟨size, true⟩ :: rest) → (before = [] → prev = 0) → 0 < a →
    a + span before + (32 + size) + span rest < 2 ^ 64 →
    AgreeBut (InHeader a (before ++ ⟨size, true⟩ :: rest)) m
      (mergePrev m (BitVec.ofNat 64 (a + span before)))
  | [], a, prev, h, hprev, ha0, ha => by
    obtain rfl := hprev rfl
    rw [span_nil, Nat.add_zero] at ha ⊢
    rw [mergePrev_first h (by omega)]
    exact .refl _ _
  | [e], a, prev, h, _, ha0, ha => by
    rw [span_cons, span_nil, Nat.add_zero] at ha ⊢
    cases hfree : e.free
    · rw [mergePrev_used h hfree (by omega)]
      exact .refl _ _
    · rw [mergePrev_free h hfree ha0 ha]
      have hext : e.extent = 32 + e.size := rfl
      have hend : a + (32 + (e.size + (32 + size))) = a + e.extent + (32 + size) := by omega
      refine joinRow_agreeBut (by omega) (fun x hlo hhi => .inl ⟨hlo, hhi⟩) (fun x hx => ?_)
      rw [hend] at hx
      exact .inr (.inr hx)
  | e :: e' :: before, a, prev, h, _, ha0, ha => by
    have hnode : a + span (e :: e' :: before) = a + e.extent + span (e' :: before) := by
      rw [span_cons, Nat.add_assoc]
    rw [hnode] at ha ⊢
    exact (mergePrev_agreeBut (e' :: before) h.2 (by simp) (by omega) ha).mono (fun x hx => .inr hx)

/-- **`kfree` writes to headers.** -/
theorem kfree_agreeBut {h : Heap} (hseg : Seg h.mem 0 a 0 (before ++ ⟨size, false⟩ :: after))
    (ha0 : 0 < a) (ha : a + span before + (32 + size) + span after < 2 ^ 64) :
    AgreeBut (InHeader a (before ++ ⟨size, false⟩ :: after)) h.mem
      (kfree h (BitVec.ofNat 64 (a + span before + headerBytes))).mem := by
  rw [kfree_eq ha0 (by omega)]
  dsimp only
  have hmarked := markFree_row hseg ha
  have hmerged := mergeNext_row hmarked ha
  have hrow : ∀ x, InHeader (a + span before) (⟨size, false⟩ :: after) x →
      InHeader a (before ++ ⟨size, false⟩ :: after) x :=
    fun x hx => (inHeader_append before _).mpr (.inr hx)
  have hmark : AgreeBut (InHeader a (before ++ ⟨size, false⟩ :: after)) h.mem
      (setFree h.mem (BitVec.ofNat 64 (a + span before)) true) := by
    refine (setFree_agreeOff _ _ _).agreeBut (fun x hlo hhi => hrow x (.inl ?_))
    rw [toNat_ofNat_of_lt (by omega)] at hlo hhi
    exact ⟨hlo, hhi⟩
  have hfits : a + span before + (32 + (absorb size after).1) + span (absorb size after).2 < 2 ^ 64 := by
    have habsorb := absorb_span size after
    omega
  obtain ⟨p, hp⟩ := hmarked.drop
  refine (hmark.trans ((mergeNext_agreeBut hp ha).mono (fun x hx => hrow x hx))).trans ?_
  refine (mergePrev_agreeBut before hmerged (fun _ => rfl) ha0 hfits).mono (fun x hx => ?_)
  rcases (inHeader_append before _).mp hx with hx | hx
  · exact (inHeader_append before _).mpr (.inl hx)
  · exact hrow x (inHeader_absorb hx)

end Writers

/-! ## Calls -/

section Calls

variable {s : HeapClient} {cs : List Chunk}

/-- The allocator's bytes, in terms of the blocks. -/
theorem Represents.heapOwn (h : Represents s cs) {x : Nat} (hx : Own heapVbase.toNat cs x) :
    HeapOwn s.heap (headers heapVbase.toNat cs) x := by
  obtain ⟨before, c, after, rfl, hlo, hown⟩ := own_chunk hx
  have hat := h.header_at
  refine ⟨_, headers_mem heapVbase.toNat before c after, ?_⟩
  rw [hat.1, hat.2, h.toNat_header]
  refine ⟨hlo, hown.imp_right (fun hin => ⟨hin.1, ?_⟩)⟩
  have hext : c.extent = 32 + c.size := rfl
  omega

/-- The bytes of a live payload are not the allocator's. -/
theorem Represents.not_own (h : Represents s cs) {p : Word} (hp : p ∈ s.live) {x : Nat}
    (hlo : p.toNat ≤ x) (hhi : x < p.toNat + payload s.heap p) : ¬Own heapVbase.toNat cs x := by
  obtain ⟨before, size, after, rfl, rfl⟩ := h.exists_chunk hp
  rw [h.payload_at] at hhi
  rw [h.toNat_payload] at hlo hhi
  exact not_own_of_used (used_mem heapVbase.toNat before size after) hlo hhi

/-- Two rows that hold a chunk in use at the same place give its pointer the same size. -/
theorem Represents.payload_eq {s' : HeapClient} {cs' : List Chunk} (h : Represents s cs)
    (h' : Represents s' cs') {p : Word} (hp : p ∈ s.live)
    (hused : ∀ u ∈ used heapVbase.toNat cs, BitVec.ofNat 64 u.1 = p → u ∈ used heapVbase.toNat cs') :
    payload s'.heap p = payload s.heap p := by
  obtain ⟨before, size, after, rfl, rfl⟩ := h.exists_chunk hp
  obtain ⟨before', after', rfl, hpos⟩ :=
    exists_of_used (hused _ (used_mem heapVbase.toNat before size after) rfl)
  rw [h.payload_at, hpos, h'.payload_at]

/-- `kmalloc` keeps the chunks in use and adds the one it returns. -/
theorem Represents.malloc_used (h : Represents s cs) {size r : Word} {heap' : Heap}
    (hcall : kmalloc s.heap size = some (r, heap')) :
    ∃ cs', Represents ⟨heap', if r = 0 then s.live else r :: s.live⟩ cs' ∧
      (r = 0 → heap' = s.heap) ∧
      (∀ u ∈ used heapVbase.toNat cs, u ∈ used heapVbase.toNat cs') ∧
      (r ≠ 0 → ∃ n, (alignUp size minSplitSize).toNat ≤ n ∧
        (r.toNat, n) ∈ used heapVbase.toNat cs') := by
  rcases h.malloc_result hcall with ⟨rfl, rfl⟩ | ⟨o, cs', hne, htake, hpos, h'⟩
  · exact ⟨cs, h, fun _ => rfl, fun u hu => hu, fun hne => absurd rfl hne⟩
  · obtain ⟨l₁, l₂, n, hold, hnew, hn⟩ := take_used htake heapVbase.toNat
    have hmem : (heapVbase.toNat + o + headerBytes, n) ∈ used heapVbase.toNat cs' := by
      rw [hnew]
      simp
    refine ⟨cs', by rwa [if_neg hne], fun h0 => absurd h0 hne, fun u hu => ?_, fun _ => ⟨n, hn, ?_⟩⟩
    · rw [hold, List.mem_append] at hu
      rw [hnew, List.mem_append, List.mem_cons]
      exact hu.imp_right .inr
    · have hlt := (used_end_le hmem).2
      have hfits := h'.fits
      rwa [hpos, toNat_ofNat_of_lt (by omega)]

/-- `kmalloc` writes to the allocator's bytes and resizes no live block. -/
theorem Represents.malloc_frame (h : Represents s cs) {size r : Word} {heap' : Heap}
    (hcall : kmalloc s.heap size = some (r, heap')) :
    AgreeBut (Own heapVbase.toNat cs) s.heap.mem heap'.mem ∧
    ∀ p ∈ s.live, payload heap' p = payload s.heap p := by
  constructor
  · by_cases hsize : size = 0
    · unfold kmalloc at hcall
      rw [if_pos hsize] at hcall
      obtain ⟨-, rfl⟩ := Prod.mk.inj (Option.some.inj hcall)
      exact .refl _ _
    unfold kmalloc at hcall
    rw [if_neg hsize] at hcall
    obtain ⟨⟨r', m'⟩, hloop, heq⟩ := Option.map_eq_some_iff.mp hcall
    obtain ⟨-, rfl⟩ := Prod.mk.inj heq
    rw [← ofNat_toNat (alignUp size minSplitSize), h.freeList, ← ofNat_toNat heapVbase,
      ← rowStart_of_ne_nil h.ne_nil 0 heapVbase.toNat] at hloop
    exact kmallocFrom_agreeBut (alignUp size minSplitSize).isLt cs h.seg heapVbase_pos h.fits hloop
  · intro p hp
    obtain ⟨cs', h', -, hused, -⟩ := h.malloc_used hcall
    exact h.payload_eq h' hp (fun u hu _ => hused u hu)

/-- `kfree` writes to headers and resizes no other live block. -/
theorem Represents.free_frame (h : Represents s cs) {q : Word} (hq : q ∈ s.live) :
    AgreeBut (Own heapVbase.toNat cs) s.heap.mem (kfree s.heap q).mem ∧
    ∀ p ∈ s.live, p ≠ q → payload (kfree s.heap q) p = payload s.heap p := by
  constructor
  · obtain ⟨before, size, after, rfl, rfl⟩ := h.exists_chunk hq
    have hfits := h.fits
    have hext : Chunk.extent ⟨size, false⟩ = 32 + size := rfl
    rw [span_append, span_cons] at hfits
    exact (kfree_agreeBut h.seg heapVbase_pos (by omega)).mono (fun x hx => hx.own)
  · intro p hp hne
    obtain ⟨cs', h', hused⟩ := h.free_used hq
    refine h.payload_eq h' hp (fun u hu hpos => ?_)
    rw [hused, List.mem_filter]
    exact ⟨hu, decide_eq_true (by rw [hpos]; exact hne)⟩

/-- What changes only the allocator's bytes keeps every payload whose block it
does not resize. -/
theorem Represents.keepsPayload (h : Represents s cs) {heap' : Heap} {p : Word} (hp : p ∈ s.live)
    (hagree : AgreeBut (Own heapVbase.toNat cs) s.heap.mem heap'.mem)
    (hsize : payload heap' p = payload s.heap p) : KeepsPayload s.heap heap' p where
  size := hsize
  bytes _ hlo hhi := hagree _ (h.not_own hp hlo hhi)

theorem Represents.changed_own (h : Represents s cs) {heap' : Heap}
    (hagree : AgreeBut (Own heapVbase.toNat cs) s.heap.mem heap'.mem) {x : Nat}
    (hx : heap'.mem x ≠ s.heap.mem x) : HeapOwn s.heap (headers heapVbase.toNat cs) x := by
  by_contra hown
  exact hx (hagree x (fun hin => hown (h.heapOwn hin)))

/-- **What one step of a client changes**: bytes of the allocator and the one it
writes itself. Chunks in use stay, but for the one it frees. -/
theorem Represents.step_frame {s' : HeapClient} {e : HeapCall} (h : Represents s cs)
    (hstep : heapSystem.step s e s') :
    ∃ cs', Represents s' cs' ∧
      AgreeBut (fun x => Own heapVbase.toNat cs x ∨ e.Writes x) s.heap.mem s'.heap.mem ∧
      ∀ u ∈ used heapVbase.toNat cs, e ≠ .free (BitVec.ofNat 64 u.1) →
        u ∈ used heapVbase.toNat cs' := by
  obtain ⟨heap', live'⟩ := s'
  cases e with
  | malloc size r =>
      obtain ⟨hcall, hlive⟩ := hstep
      dsimp only at hcall hlive
      obtain ⟨cs', h', -, hused, -⟩ := h.malloc_used hcall
      rw [← hlive] at h'
      exact ⟨cs', h', (h.malloc_frame hcall).1.mono (fun x hx => .inl hx), fun u hu _ => hused u hu⟩
  | free ptr =>
      obtain ⟨hptr, hheap, hlive⟩ := hstep
      dsimp only at hheap hlive
      subst hheap hlive
      by_cases hmem : ptr ∈ s.live
      · obtain ⟨cs', h', hused⟩ := h.free_used hmem
        refine ⟨cs', h', (h.free_frame hmem).1.mono (fun x hx => .inl hx), fun u hu hne => ?_⟩
        rw [hused, List.mem_filter]
        exact ⟨hu, decide_eq_true (fun heq => hne (by rw [heq]))⟩
      · obtain rfl := hptr.resolve_right hmem
        rw [List.erase_of_not_mem hmem, show kfree s.heap 0 = s.heap by simp [kfree]]
        exact ⟨cs, h, .refl _ _, fun u hu _ => hu⟩
  | write x b =>
      obtain ⟨hx, hheap, hlive⟩ := hstep
      dsimp only at hheap hlive
      subst hheap hlive
      refine ⟨cs, h.write hx, (store8_agreeOff _ x b).agreeBut (fun y hlo hhi => .inr ?_),
        fun u hu _ => hu⟩
      show y = x
      omega

/-- Writing to bytes that are not the allocator's keeps the invariant. -/
theorem Represents.congr (h : Represents s cs) {m' : Mem}
    (hm : ∀ x, Own heapVbase.toNat cs x → m' x = s.heap.mem x) :
    Represents ⟨{ s.heap with mem := m' }, s.live⟩ cs :=
  { h with seg := h.seg.headers_congr (fun x hx => hm x hx.own) }

end Calls

/-- **Allocations keep their bytes.** In every reachable state of the heap, with
the blocks `bs`: `kmalloc` of any size returns, and neither it nor `kfree` of a
live pointer changes the block size of any other live pointer `p`, or a byte
from `p` to the end of that block; each byte they do change lies in a header or
inside a free block. -/
theorem heap_keeps_payloads {s : HeapClient} (h : heapSystem.Reachable s) :
    ∃ bs, Reached s.heap.mem s.heap.freeList bs ∧
      (∀ size, ∃ r heap', kmalloc s.heap size = some (r, heap') ∧
        (∀ p ∈ s.live, KeepsPayload s.heap heap' p) ∧
        ∀ x, heap'.mem x ≠ s.heap.mem x → HeapOwn s.heap bs x) ∧
      ∀ q ∈ s.live,
        (∀ p ∈ s.live, p ≠ q → KeepsPayload s.heap (kfree s.heap q) p) ∧
        ∀ x, (kfree s.heap q).mem x ≠ s.heap.mem x → HeapOwn s.heap bs x := by
  obtain ⟨cs, hcs⟩ := represents_invariant s h
  refine ⟨_, hcs.reached, fun size => ?_, fun q hq => ?_⟩
  · obtain ⟨r, heap', hcall, -⟩ := hcs.malloc size
    obtain ⟨hagree, hsize⟩ := hcs.malloc_frame hcall
    exact ⟨r, heap', hcall, fun p hp => hcs.keepsPayload hp hagree (hsize p hp),
      fun x hx => hcs.changed_own hagree hx⟩
  · obtain ⟨hagree, hsize⟩ := hcs.free_frame hq
    exact ⟨fun p hp hne => hcs.keepsPayload hp hagree (hsize p hp hne),
      fun x hx => hcs.changed_own hagree hx⟩

/-- Of two blocks, freeing the first leaves the 208 bytes of the second. -/
theorem heap_keeps_payloads_twoBlocks :
    ∃ s : HeapClient, s.live = [heapVbase + 176, heapVbase + 32] ∧
      KeepsPayload s.heap (kfree s.heap (heapVbase + 32)) (heapVbase + 176) := by
  obtain ⟨heap, hreach⟩ := freshHeap_twoBlocks
  obtain ⟨bs, -, -, hfree⟩ := heap_keeps_payloads hreach
  refine ⟨_, rfl, (hfree (heapVbase + 32) ?_).1 _ List.mem_cons_self (by decide)⟩
  exact List.mem_cons_of_mem _ List.mem_cons_self

end QuinKernel
