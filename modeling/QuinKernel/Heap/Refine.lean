import QuinKernel.Heap.Model
import QuinKernel.Heap.Chunks

/-!
# The block list refines the row of chunks

`Seg m stop a prev cs` says that the headers of the row `cs` stand in memory
from address `a` on, linked both ways: the first points back to `prev`, the
last on to `stop`. It is stated header by header from the left, so the loop of
`kmalloc` follows it without ever cutting the list; `Seg.suffix` replaces the
end of a row, which is how `kfree` reaches the block it frees.

`kmallocFrom_spec` and `kfree_spec` are the two simulations: first fit is
`take`, freeing is `release`.
-/

namespace QuinKernel

open Machine Heap

/-! ## Headers -/

theorem header_congr {m m' : Mem} {a : Nat} (h : ∀ x, a ≤ x → x < a + 32 → m' x = m x) :
    header m' a = header m a := by
  unfold header
  rw [load64_congr (a := a) (fun x hlo hhi => h x hlo (by omega)),
    load64_congr (a := a + 16) (fun x hlo hhi => h x (by omega) (by omega)),
    load64_congr (a := a + 24) (fun x hlo hhi => h x (by omega) (by omega)),
    h (a + 8) (by omega) (by omega)]

theorem header_agreeOff {m m' : Mem} {lo hi a : Nat} (h : AgreeOff lo hi m m')
    (hd : a + 32 ≤ lo ∨ hi ≤ a) : header m' a = header m a :=
  header_congr (fun x hlo hhi => h x (by omega))

section Setters

variable (m : Mem) (node w : Word)

theorem setSize_agreeOff : AgreeOff node.toNat (node.toNat + 32) m (setSize m node w) :=
  (store64_agreeOff m _ w).mono (Nat.le_refl _) (by omega)

theorem setFree_agreeOff (f : Bool) :
    AgreeOff node.toNat (node.toNat + 32) m (setFree m node f) :=
  (store8_agreeOff m _ _).mono (by omega) (by omega)

theorem setPrev_agreeOff : AgreeOff node.toNat (node.toNat + 32) m (setPrev m node w) :=
  (store64_agreeOff m _ w).mono (by omega) (by omega)

theorem setNext_agreeOff : AgreeOff node.toNat (node.toNat + 32) m (setNext m node w) :=
  (store64_agreeOff m _ w).mono (by omega) (by omega)

@[simp] theorem header_setSize :
    header (setSize m node w) node.toNat = { header m node.toNat with size := w } := by
  simp only [header, setSize, load64_store64, BlockHeader.mk.injEq, true_and]
  refine ⟨?_, ?_, ?_⟩
  · rw [store64_other _ _ (by omega)]
  · exact load64_store64_ne _ _ (by omega)
  · exact load64_store64_ne _ _ (by omega)

@[simp] theorem header_setFree (f : Bool) :
    header (setFree m node f) node.toNat = { header m node.toNat with free := f } := by
  have hoff := store8_agreeOff m (node.toNat + 8) (if f then 1 else 0)
  simp only [header, setFree, store8_self, BlockHeader.mk.injEq]
  refine ⟨hoff.load64 (by omega), ?_, hoff.load64 (by omega), hoff.load64 (by omega)⟩
  cases f <;> rfl

@[simp] theorem header_setPrev :
    header (setPrev m node w) node.toNat = { header m node.toNat with prev := w } := by
  simp only [header, setPrev, load64_store64, BlockHeader.mk.injEq, true_and]
  refine ⟨load64_store64_ne _ _ (by omega), ?_, load64_store64_ne _ _ (by omega)⟩
  rw [store64_other _ _ (by omega)]

@[simp] theorem header_setNext :
    header (setNext m node w) node.toNat = { header m node.toNat with next := w } := by
  simp only [header, setNext, load64_store64, BlockHeader.mk.injEq, and_true]
  refine ⟨load64_store64_ne _ _ (by omega), ?_, load64_store64_ne _ _ (by omega)⟩
  rw [store64_other _ _ (by omega)]

end Setters

/-! ## Rows in memory -/

/-- A block is not at `NULL`. -/
theorem ofNat_ne_zero {b : Nat} (h0 : 0 < b) (hb : b < 2 ^ 64) : BitVec.ofNat 64 b ≠ 0 := by
  rw [ne_eq, show (0 : Word) = BitVec.ofNat 64 0 from rfl, ofNat_eq_iff hb (by decide)]
  omega

/-- Where the row `cs` starts if it stands at `a`; `stop` if it is empty. -/
def rowStart (stop a : Nat) : List Chunk → Nat
  | [] => stop
  | _ :: _ => a

theorem rowStart_of_ne_nil {ds : List Chunk} (h : ds ≠ []) (stop b : Nat) :
    rowStart stop b ds = b := by
  cases ds with
  | nil => exact absurd rfl h
  | cons => rfl

/-- The headers of `cs` stand from `a` on, linked to `prev` and `stop`. -/
def Seg (m : Mem) (stop : Nat) : Nat → Nat → List Chunk → Prop
  | _, _, [] => True
  | a, prev, c :: cs =>
      header m a = ⟨BitVec.ofNat 64 c.size, c.free, BitVec.ofNat 64 prev,
        BitVec.ofNat 64 (rowStart stop (a + c.extent) cs)⟩ ∧
      Seg m stop (a + c.extent) a cs

section Seg

variable {m m' : Mem} {stop a prev : Nat} {c : Chunk} {cs : List Chunk}

theorem extent_pos (c : Chunk) : 32 ≤ c.extent := by
  unfold Chunk.extent headerBytes
  omega

/-- A row depends on the bytes it covers. -/
theorem Seg.congr (h : Seg m stop a prev cs)
    (hm : ∀ x, a ≤ x → x < a + span cs → m' x = m x) : Seg m' stop a prev cs := by
  induction cs generalizing a prev with
  | nil => trivial
  | cons c cs ih =>
      have hext := extent_pos c
      rw [span_cons] at hm
      refine ⟨(header_congr (fun x hlo hhi => hm x hlo (by omega))).trans h.1, ih h.2 ?_⟩
      exact fun x hlo hhi => hm x (by omega) (by omega)

/-- Of these it reads the headers only. -/
theorem Seg.headers_congr (h : Seg m stop a prev cs) (hm : ∀ x, InHeader a cs x → m' x = m x) :
    Seg m' stop a prev cs := by
  induction cs generalizing a prev with
  | nil => trivial
  | cons c cs ih =>
      refine ⟨(header_congr (fun x hlo hhi => hm x (.inl ⟨hlo, hhi⟩))).trans h.1, ih h.2 ?_⟩
      exact fun x hx => hm x (.inr hx)

theorem Seg.agreeOff {lo hi : Nat} (h : Seg m stop a prev cs) (hm : AgreeOff lo hi m m')
    (hd : a + span cs ≤ lo ∨ hi ≤ a) : Seg m' stop a prev cs :=
  h.congr (fun x hlo hhi => hm x (by omega))

/-- The first block's `prev` is rewritten. -/
theorem Seg.setPrev_first (h : Seg m 0 a prev cs) (hcs : cs ≠ []) (ha : a + span cs < 2 ^ 64)
    (p : Nat) : Seg (setPrev m (BitVec.ofNat 64 a) (BitVec.ofNat 64 p)) 0 a p cs := by
  cases cs with
  | nil => exact absurd rfl hcs
  | cons c cs =>
      have hext := extent_pos c
      rw [span_cons] at ha
      have haddr : (BitVec.ofNat 64 a).toNat = a := toNat_ofNat_of_lt (by omega)
      have hself := header_setPrev m (BitVec.ofNat 64 a) (BitVec.ofNat 64 p)
      have hoff := setPrev_agreeOff m (BitVec.ofNat 64 a) (BitVec.ofNat 64 p)
      rw [haddr] at hself hoff
      refine ⟨?_, h.2.agreeOff hoff (by omega)⟩
      rw [hself, h.1]

/-- `if (next != NULL) next->prev = node`, for the row `next` starts. -/
theorem Seg.relink (h : Seg m 0 a prev cs) (ha0 : 0 < a) (ha : a + span cs < 2 ^ 64) (p : Nat) :
    Seg (if BitVec.ofNat 64 (rowStart 0 a cs) ≠ 0 then
        setPrev m (BitVec.ofNat 64 (rowStart 0 a cs)) (BitVec.ofNat 64 p) else m) 0 a p cs ∧
    AgreeOff a (a + span cs) m (if BitVec.ofNat 64 (rowStart 0 a cs) ≠ 0 then
      setPrev m (BitVec.ofNat 64 (rowStart 0 a cs)) (BitVec.ofNat 64 p) else m) := by
  cases cs with
  | nil =>
      rw [if_neg (by simp [rowStart])]
      exact ⟨trivial, AgreeOff.refl _ _ _⟩
  | cons c cs =>
      have hext := extent_pos c
      rw [show rowStart 0 a (c :: cs) = a from rfl, if_pos (ofNat_ne_zero ha0 (by omega))]
      refine ⟨h.setPrev_first (by simp) ha p, ?_⟩
      have hoff := setPrev_agreeOff m (BitVec.ofNat 64 a) (BitVec.ofNat 64 p)
      rw [toNat_ofNat_of_lt (by omega)] at hoff
      exact hoff.mono (Nat.le_refl _) (by rw [span_cons]; omega)

/-- The end of a row is replaced. -/
theorem Seg.suffix {ds ds' : List Chunk} (hds : ds ≠ []) (hds' : ds' ≠ []) :
    ∀ (cs : List Chunk) {a prev : Nat}, Seg m stop a prev (cs ++ ds) →
    AgreeOff (a + span cs) (a + span cs + span ds) m m' →
    (∀ p, Seg m stop (a + span cs) p ds → Seg m' stop (a + span cs) p ds') →
    Seg m' stop a prev (cs ++ ds')
  | [], _, _, h, _, hrep => hrep _ h
  | c :: cs, a, prev, h, hoff, hrep => by
    have hext := extent_pos c
    rw [span_cons, ← Nat.add_assoc] at hoff hrep
    have hstart : ∀ es : List Chunk, es ≠ [] → ∀ b, rowStart stop b (cs ++ es) = b :=
      fun es hes b => rowStart_of_ne_nil (List.append_ne_nil_of_right_ne_nil cs hes) stop b
    refine ⟨?_, Seg.suffix hds hds' cs h.2 hoff hrep⟩
    have hhead : header m a = ⟨_, _, _,
        BitVec.ofNat 64 (rowStart stop (a + c.extent) (cs ++ ds))⟩ := h.1
    rw [hstart ds hds] at hhead
    change header m' a = ⟨_, _, _, BitVec.ofNat 64 (rowStart stop (a + c.extent) (cs ++ ds'))⟩
    rw [header_agreeOff hoff (by omega), hhead, hstart ds' hds']

theorem Seg.drop {ds : List Chunk} : ∀ (cs : List Chunk) {a prev : Nat},
    Seg m stop a prev (cs ++ ds) → ∃ p, Seg m stop (a + span cs) p ds
  | [], _, prev, h => ⟨prev, h⟩
  | c :: cs, a, _, h => by
    rw [span_cons, ← Nat.add_assoc]
    exact Seg.drop cs h.2

/-- What is done to the end of a row, done in place. -/
theorem Seg.replace {ds ds' : List Chunk} (hds : ds ≠ []) (hds' : ds' ≠ []) (cs : List Chunk)
    (h : Seg m stop a prev (cs ++ ds))
    (hrep : ∀ p, Seg m stop (a + span cs) p ds →
      Seg m' stop (a + span cs) p ds' ∧ AgreeOff (a + span cs) (a + span cs + span ds) m m') :
    Seg m' stop a prev (cs ++ ds') := by
  obtain ⟨p, hp⟩ := h.drop
  exact h.suffix hds hds' cs (hrep p hp).2 (fun q hq => (hrep q hq).1)

end Seg

/-! ## `kmalloc` -/

section Kmalloc

variable {m : Mem} {a prev n : Nat} {c : Chunk} {cs : List Chunk}

/-- What `splitBlock` writes, its reads evaluated. -/
theorem splitBlock_eq (h : Seg m 0 a prev (c :: cs)) (hn : n + 48 ≤ c.size)
    (ha : a + span (c :: cs) < 2 ^ 64) :
    let A := BitVec.ofNat 64 a
    let N := BitVec.ofNat 64 (a + 32 + n)
    let next := BitVec.ofNat 64 (rowStart 0 (a + c.extent) cs)
    let m₄ := setNext (setPrev (setFree (setSize m N (BitVec.ofNat 64 (c.size - n - 32))) N true)
      N A) N next
    splitBlock m A (BitVec.ofNat 64 n) (BitVec.ofNat 64 (c.size - n)) =
      setNext (setSize (if next ≠ 0 then setPrev m₄ next N else m₄) A (BitVec.ofNat 64 n)) A N := by
  intro A N next m₄
  rw [span_cons] at ha
  have hext : c.extent = 32 + c.size := rfl
  have haddr : A.toNat = a := toNat_ofNat_of_lt (by omega)
  have hnewAddr : N.toNat = a + 32 + n := toNat_ofNat_of_lt (by omega)
  have hnew : A + headerSize + BitVec.ofNat 64 n = N := by
    show _ = BitVec.ofNat 64 (a + 32 + n)
    rw [BitVec.ofNat_add, BitVec.ofNat_add]
    rfl
  have hrem : BitVec.ofNat 64 (c.size - n) - headerSize = BitVec.ofNat 64 (c.size - n - 32) := by
    apply BitVec.eq_of_toNat_eq
    rw [toNat_ofNat_of_lt (by omega)]
    simp [headerSize, BitVec.toNat_sub]
    omega
  -- the old block's header is read after the new one's was written
  set m₁ := setSize m N (BitVec.ofNat 64 (c.size - n - 32)) with hm₁
  set m₂ := setFree m₁ N true with hm₂
  set m₃ := setPrev m₂ N A with hm₃
  have hoff₃ : AgreeOff (a + 32 + n) (a + 32 + n + 32) m m₃ := by
    rw [← hnewAddr]
    exact ((setSize_agreeOff m N _).trans (setFree_agreeOff m₁ N true)).trans
      (setPrev_agreeOff m₂ N A)
  have hnode₃ : (header m₃ A.toNat).next = next := by
    rw [haddr, header_agreeOff hoff₃ (by omega), h.1]
  have hnext₄ : (header m₄ N.toNat).next = next := by
    rw [show m₄ = setNext m₃ N next from rfl, header_setNext]
  unfold splitBlock
  simp only [hnew, hrem]
  rw [← hm₁, ← hm₂, ← hm₃, hnode₃, show setNext m₃ N next = m₄ from rfl, hnext₄]

/-- Splitting a block and taking its first half. -/
theorem splitBlock_spec (h : Seg m 0 a prev (c :: cs)) (hn : n + 48 ≤ c.size)
    (ha : a + span (c :: cs) < 2 ^ 64) :
    Seg (setFree (splitBlock m (BitVec.ofNat 64 a) (BitVec.ofNat 64 n)
        (BitVec.ofNat 64 (c.size - n))) (BitVec.ofNat 64 a) false) 0 a prev
      (⟨n, false⟩ :: ⟨c.size - n - 32, true⟩ :: cs) ∧
    AgreeOff a (a + span (c :: cs)) m
      (setFree (splitBlock m (BitVec.ofNat 64 a) (BitVec.ofNat 64 n)
        (BitVec.ofNat 64 (c.size - n))) (BitVec.ofNat 64 a) false) := by
  rw [splitBlock_eq h hn ha]
  rw [span_cons] at ha ⊢
  have hext : c.extent = 32 + c.size := rfl
  have haddr : (BitVec.ofNat 64 a).toNat = a := toNat_ofNat_of_lt (by omega)
  have hnewAddr : (BitVec.ofNat 64 (a + 32 + n)).toNat = a + 32 + n := toNat_ofNat_of_lt (by omega)
  -- the new block's header
  set N := BitVec.ofNat 64 (a + 32 + n) with hN
  set A := BitVec.ofNat 64 a with hA
  set m₁ := setSize m N (BitVec.ofNat 64 (c.size - n - 32)) with hm₁
  set m₂ := setFree m₁ N true with hm₂
  set m₃ := setPrev m₂ N A with hm₃
  set m₄ := setNext m₃ N (BitVec.ofNat 64 (rowStart 0 (a + c.extent) cs)) with hm₄
  have hoff₄ : AgreeOff (a + 32 + n) (a + 32 + n + 32) m m₄ := by
    rw [← hnewAddr]
    exact (((setSize_agreeOff m N _).trans (setFree_agreeOff m₁ N true)).trans
      (setPrev_agreeOff m₂ N A)).trans (setNext_agreeOff m₃ N _)
  have hnew₄ : header m₄ N.toNat = ⟨BitVec.ofNat 64 (c.size - n - 32), true, A,
      BitVec.ofNat 64 (rowStart 0 (a + c.extent) cs)⟩ := by
    rw [hm₄, header_setNext, hm₃, header_setPrev, hm₂, header_setFree, hm₁, header_setSize]
  -- the successor points back to the new block
  obtain ⟨hrest, hoff₅⟩ := (h.2.agreeOff hoff₄ (by omega)).relink (by omega) (by omega)
    (a + 32 + n)
  set m₅ := if BitVec.ofNat 64 (rowStart 0 (a + c.extent) cs) ≠ 0 then
    setPrev m₄ (BitVec.ofNat 64 (rowStart 0 (a + c.extent) cs)) N else m₄ with hm₅
  -- the old block's header
  set m₆ := setSize m₅ A (BitVec.ofNat 64 n) with hm₆
  set m₇ := setNext m₆ A N with hm₇
  have hoff₈ : AgreeOff a (a + 32) m₅ (setFree m₇ A false) := by
    rw [← haddr]
    exact ((setSize_agreeOff m₅ A _).trans (setNext_agreeOff m₆ A N)).trans
      (setFree_agreeOff m₇ A false)
  have hnode : header (setFree m₇ A false) a =
      ⟨BitVec.ofNat 64 n, false, BitVec.ofNat 64 prev, N⟩ := by
    have hnode₅ : header m₅ A.toNat = header m A.toNat := by
      rw [haddr, header_agreeOff hoff₅ (by omega), header_agreeOff hoff₄ (by omega)]
    rw [← haddr, header_setFree, hm₇, header_setNext, hm₆, header_setSize, hnode₅, haddr, h.1]
  have hnewNode : header (setFree m₇ A false) (a + 32 + n) =
      ⟨BitVec.ofNat 64 (c.size - n - 32), true, A,
        BitVec.ofNat 64 (rowStart 0 (a + c.extent) cs)⟩ := by
    rw [header_agreeOff hoff₈ (by omega), header_agreeOff hoff₅ (by omega), ← hnewAddr, hnew₄]
  have hfirst : a + Chunk.extent ⟨n, false⟩ = a + 32 + n := by
    rw [Nat.add_assoc]
    rfl
  have hsecond : a + 32 + n + Chunk.extent ⟨c.size - n - 32, true⟩ = a + c.extent := by
    simp only [Chunk.extent, headerBytes]
    omega
  refine ⟨⟨?_, ?_, ?_⟩, ?_⟩
  · rw [hfirst]
    exact hnode
  · rw [hfirst, hsecond]
    exact hnewNode
  · rw [hfirst, hsecond]
    exact hrest.agreeOff hoff₈ (by omega)
  · refine ((hoff₄.mono (by omega) (by omega)).trans (hoff₅.mono (by omega) (by omega))).trans ?_
    exact hoff₈.mono (Nat.le_refl _) (by omega)

/-- Taking a block whole. -/
theorem takeWhole_spec (h : Seg m 0 a prev (c :: cs)) (ha : a + span (c :: cs) < 2 ^ 64) :
    Seg (setFree m (BitVec.ofNat 64 a) false) 0 a prev (⟨c.size, false⟩ :: cs) ∧
    AgreeOff a (a + span (c :: cs)) m (setFree m (BitVec.ofNat 64 a) false) := by
  rw [span_cons] at ha ⊢
  have hext := extent_pos c
  have haddr : (BitVec.ofNat 64 a).toNat = a := toNat_ofNat_of_lt (by omega)
  have hself := header_setFree m (BitVec.ofNat 64 a) false
  have hoff := setFree_agreeOff m (BitVec.ofNat 64 a) false
  rw [haddr] at hself hoff
  refine ⟨⟨?_, h.2.agreeOff hoff (by omega)⟩, hoff.mono (Nat.le_refl _) (by omega)⟩
  rw [hself, h.1]
  rfl

/-- First fit does not empty a row. -/
theorem take_ne_nil {o : Nat} {cs' : List Chunk} (h : take n cs = some (o, cs')) : cs' ≠ [] := by
  rintro rfl
  have hspan := take_span h
  cases cs with
  | nil => simp [take] at h
  | cons c cs =>
      have hext := extent_pos c
      rw [span_cons, span_nil] at hspan
      omega

/-- The memory after the loop used the block at `a`, of `size` bytes, for `n`. -/
def carveBlock (m : Mem) (a n size : Nat) : Mem :=
  setFree (if headerBytes + granule ≤ size - n then
    splitBlock m (BitVec.ofNat 64 a) (BitVec.ofNat 64 n) (BitVec.ofNat 64 (size - n)) else m)
    (BitVec.ofNat 64 a) false

theorem lt_size_iff (h : Seg m 0 a prev (c :: cs)) (hn : n < 2 ^ 64)
    (ha : a + span (c :: cs) < 2 ^ 64) :
    (header m (BitVec.ofNat 64 a).toNat).size < BitVec.ofNat 64 n ↔ c.size < n := by
  have hspan : span (c :: cs) = c.extent + span cs := rfl
  have hext : c.extent = 32 + c.size := rfl
  rw [toNat_ofNat_of_lt (by omega), h.1, BitVec.lt_def, toNat_ofNat_of_lt (by omega),
    toNat_ofNat_of_lt hn]

/-- The loop uses a block that fits. -/
theorem kmallocFrom_fit (h : Seg m 0 a prev (c :: cs)) (hn : n < 2 ^ 64) (ha0 : 0 < a)
    (ha : a + span (c :: cs) < 2 ^ 64) (hfree : c.free = true) (hfit : n ≤ c.size) (fuel : Nat) :
    kmallocFrom m (BitVec.ofNat 64 n) (fuel + 1) (BitVec.ofNat 64 a) =
      some (BitVec.ofNat 64 (a + 32), carveBlock m a n c.size) := by
  have hspan : span (c :: cs) = c.extent + span cs := rfl
  have hext : c.extent = 32 + c.size := rfl
  have hlt := lt_size_iff h hn ha
  have haddr : (BitVec.ofNat 64 a).toNat = a := toNat_ofNat_of_lt (by omega)
  rw [haddr, h.1] at hlt
  have hsub : BitVec.ofNat 64 c.size - BitVec.ofNat 64 n = BitVec.ofNat 64 (c.size - n) := by
    apply BitVec.eq_of_toNat_eq
    rw [toNat_ofNat_of_lt (by omega), BitVec.toNat_sub_of_le, toNat_ofNat_of_lt (by omega),
      toNat_ofNat_of_lt hn]
    rw [BitVec.le_def, toNat_ofNat_of_lt hn, toNat_ofNat_of_lt (by omega)]
    exact hfit
  have hsplit : headerSize + minSplitSize ≤ BitVec.ofNat 64 (c.size - n) ↔
      headerBytes + granule ≤ c.size - n := by
    rw [BitVec.le_def, toNat_ofNat_of_lt (by omega)]
    rfl
  have hptr : BitVec.ofNat 64 a + headerSize = BitVec.ofNat 64 (a + 32) := by
    rw [BitVec.ofNat_add]
    rfl
  rw [kmallocFrom, if_neg (ofNat_ne_zero ha0 (by omega)), haddr, h.1]
  dsimp only
  rw [if_neg (by rw [hlt]; simp [hfree, hfit]), hsub, hptr]
  simp only [hsplit]
  rfl

/-- The loop passes over a block that is in use or too small. -/
theorem kmallocFrom_skip (h : Seg m 0 a prev (c :: cs)) (hn : n < 2 ^ 64) (ha0 : 0 < a)
    (ha : a + span (c :: cs) < 2 ^ 64) (hfit : ¬(c.free = true ∧ n ≤ c.size)) (fuel : Nat) :
    kmallocFrom m (BitVec.ofNat 64 n) (fuel + 1) (BitVec.ofNat 64 a) =
      kmallocFrom m (BitVec.ofNat 64 n) fuel (BitVec.ofNat 64 (rowStart 0 (a + c.extent) cs)) := by
  have hspan : span (c :: cs) = c.extent + span cs := rfl
  have hext : c.extent = 32 + c.size := rfl
  have hlt := lt_size_iff h hn ha
  have haddr : (BitVec.ofNat 64 a).toNat = a := toNat_ofNat_of_lt (by omega)
  rw [haddr, h.1] at hlt
  have hskip : (!c.free) = true ∨ BitVec.ofNat 64 c.size < BitVec.ofNat 64 n := by
    by_cases hfree : c.free = true
    · exact .inr (hlt.mpr (by simpa [hfree] using hfit))
    · exact .inl (by simpa using hfree)
  rw [kmallocFrom, if_neg (ofNat_ne_zero ha0 (by omega)), haddr, h.1]
  dsimp only
  rw [if_pos hskip]

/-- What using a block does to the row. -/
theorem carveBlock_spec (h : Seg m 0 a prev (c :: cs)) (ha : a + span (c :: cs) < 2 ^ 64) :
    Seg (carveBlock m a n c.size) 0 a prev (carve n c ++ cs) ∧
    AgreeOff a (a + span (c :: cs)) m (carveBlock m a n c.size) := by
  unfold carveBlock carve
  by_cases hroom : headerBytes + granule ≤ c.size - n
  · rw [if_pos hroom, if_pos hroom]
    unfold headerBytes granule at hroom
    exact splitBlock_spec h (by omega) ha
  · rw [if_neg hroom, if_neg hroom]
    exact takeWhole_spec h ha

/-- **First fit is `take`.** From any block on, the loop of `kmalloc` returns,
and does to the rest of the list what `take` does to the rest of the row. -/
theorem kmallocFrom_spec (hn : n < 2 ^ 64) :
    ∀ (cs : List Chunk) {a prev fuel : Nat}, Seg m 0 a prev cs → 0 < a → a + span cs < 2 ^ 64 →
    cs.length < fuel →
    (take n cs = none ∧
      kmallocFrom m (BitVec.ofNat 64 n) fuel (BitVec.ofNat 64 (rowStart 0 a cs)) = some (0, m)) ∨
    ∃ o cs' m', take n cs = some (o, cs') ∧
      kmallocFrom m (BitVec.ofNat 64 n) fuel (BitVec.ofNat 64 (rowStart 0 a cs)) =
        some (BitVec.ofNat 64 (a + o + 32), m') ∧
      Seg m' 0 a prev cs' ∧ AgreeOff a (a + span cs) m m'
  | [], _, _, 0, _, _, _, hfuel => absurd hfuel (by simp)
  | [], _, _, fuel + 1, _, _, _, _ => .inl ⟨rfl, by simp [kmallocFrom, rowStart]⟩
  | c :: cs, _, _, 0, _, _, _, hfuel => absurd hfuel (by simp)
  | c :: cs, a, prev, fuel + 1, h, ha0, ha, hfuel => by
    have hspan : span (c :: cs) = c.extent + span cs := rfl
    have hext := extent_pos c
    rw [show rowStart 0 a (c :: cs) = a from rfl, take]
    by_cases hfit : c.free = true ∧ n ≤ c.size
    · -- this block is used
      rw [if_pos hfit, kmallocFrom_fit h hn ha0 ha hfit.1 hfit.2]
      obtain ⟨hseg, hoff⟩ := carveBlock_spec (n := n) h ha
      exact .inr ⟨0, _, _, rfl, rfl, hseg, hoff⟩
    · -- this block is passed over
      rw [if_neg hfit, kmallocFrom_skip h hn ha0 ha hfit]
      have hlen : cs.length < fuel := by simpa using hfuel
      rcases kmallocFrom_spec hn cs h.2 (by omega) (by omega) hlen with
        ⟨hnone, hcall⟩ | ⟨o, cs', m', htake, hcall, hseg, hoff⟩
      · exact .inl ⟨by rw [hnone]; rfl, hcall⟩
      · refine .inr ⟨c.extent + o, c :: cs', m', by rw [htake]; rfl, ?_, ⟨?_, hseg⟩, ?_⟩
        · rw [hcall, ← Nat.add_assoc]
        · have hcs : cs ≠ [] := by
            rintro rfl
            simp [take] at htake
          have hhead := h.1
          rw [rowStart_of_ne_nil hcs] at hhead
          rw [header_agreeOff hoff (by omega), hhead, rowStart_of_ne_nil (take_ne_nil htake)]
        · exact hoff.mono (by omega) (by omega)

end Kmalloc

/-! ## `kfree` -/

section Kfree

variable {m : Mem} {a prev : Nat} {cs : List Chunk} {size : Nat} {before after : List Chunk}

/-- What both merges write: the block at `a` gets `n` bytes, and the row `ds`
behind them as its successor. -/
def joinRow (m : Mem) (a n : Nat) (ds : List Chunk) : Mem :=
  let A := BitVec.ofNat 64 a
  let next := BitVec.ofNat 64 (rowStart 0 (a + (32 + n)) ds)
  let m := setNext (setSize m A (BitVec.ofNat 64 n)) A next
  if next ≠ 0 then setPrev m next A else m

theorem joinRow_spec {n q : Nat} {s x : Word} {ds : List Chunk}
    (hhead : header m a = ⟨s, true, BitVec.ofNat 64 prev, x⟩) (hds : Seg m 0 (a + (32 + n)) q ds)
    (ha : a + (32 + n) + span ds < 2 ^ 64) :
    Seg (joinRow m a n ds) 0 a prev (⟨n, true⟩ :: ds) ∧
    AgreeOff a (a + (32 + n) + span ds) m (joinRow m a n ds) := by
  have haddr : (BitVec.ofNat 64 a).toNat = a := toNat_ofNat_of_lt (by omega)
  unfold joinRow
  dsimp only
  set A := BitVec.ofNat 64 a with hA
  set m₁ := setSize m A (BitVec.ofNat 64 n) with hm₁
  set m₂ := setNext m₁ A (BitVec.ofNat 64 (rowStart 0 (a + (32 + n)) ds)) with hm₂
  have hoff₂ : AgreeOff a (a + 32) m m₂ := by
    rw [← haddr]
    exact (setSize_agreeOff m A _).trans (setNext_agreeOff m₁ A _)
  have hself₂ : header m₂ a = ⟨BitVec.ofNat 64 n, true, BitVec.ofNat 64 prev,
      BitVec.ofNat 64 (rowStart 0 (a + (32 + n)) ds)⟩ := by
    rw [← haddr, hm₂, header_setNext, hm₁, header_setSize, haddr, hhead]
  obtain ⟨hrow, hoff₃⟩ := (hds.agreeOff hoff₂ (by omega)).relink (by omega) (by omega) a
  refine ⟨⟨?_, hrow⟩, (hoff₂.mono (by omega) (by omega)).trans (hoff₃.mono (by omega) (by omega))⟩
  rw [header_agreeOff hoff₃ (by omega), hself₂]
  rfl

/-- A free successor is joined. -/
theorem mergeNext_free {d : Chunk} {ds : List Chunk}
    (h : Seg m 0 a prev (⟨size, true⟩ :: d :: ds)) (hfree : d.free = true)
    (ha : a + (32 + size) + span (d :: ds) < 2 ^ 64) :
    mergeNext m (BitVec.ofNat 64 a) = joinRow m a (size + d.extent) ds := by
  have hdext : d.extent = 32 + d.size := rfl
  rw [span_cons] at ha
  have haddr : (BitVec.ofNat 64 a).toNat = a := toNat_ofNat_of_lt (by omega)
  have hnext : (BitVec.ofNat 64 (a + (32 + size))).toNat = a + (32 + size) :=
    toNat_ofNat_of_lt (by omega)
  have hself : header m a = ⟨_, _, _, BitVec.ofNat 64 (a + (32 + size))⟩ := h.1
  have hhead : header m (a + (32 + size)) = ⟨_, _, _,
      BitVec.ofNat 64 (rowStart 0 (a + (32 + size) + d.extent) ds)⟩ := h.2.1
  have hsize : BitVec.ofNat 64 size + (headerSize + BitVec.ofNat 64 d.size) =
      BitVec.ofNat 64 (size + d.extent) := by
    rw [hdext, BitVec.ofNat_add, BitVec.ofNat_add]
    rfl
  have hend : a + (32 + size) + d.extent = a + (32 + (size + d.extent)) := by omega
  unfold mergeNext joinRow
  simp only [haddr, hself, hnext, hhead, hfree]
  rw [if_pos ⟨ofNat_ne_zero (by omega) (by omega), trivial⟩, hsize]
  -- the successor's header stands apart from the one written
  set m₁ := setSize m (BitVec.ofNat 64 a) (BitVec.ofNat 64 (size + d.extent)) with hm₁
  have hoff₁ : AgreeOff a (a + 32) m m₁ := by
    have := setSize_agreeOff m (BitVec.ofNat 64 a) (BitVec.ofNat 64 (size + d.extent))
    rwa [haddr] at this
  rw [header_agreeOff hoff₁ (by omega), hhead, hend]
  have hnext₂ : ∀ w, (header (setNext m₁ (BitVec.ofNat 64 a) w) a).next = w := by
    intro w
    have := header_setNext m₁ (BitVec.ofNat 64 a) w
    rw [haddr] at this
    rw [this]
  dsimp only
  rw [hnext₂]

/-- A successor in use, or none, stays. -/
theorem mergeNext_used (h : Seg m 0 a prev (⟨size, true⟩ :: after))
    (hused : ∀ d ∈ after.head?, d.free = false) (ha : a + (32 + size) + span after < 2 ^ 64) :
    mergeNext m (BitVec.ofNat 64 a) = m := by
  have haddr : (BitVec.ofNat 64 a).toNat = a := toNat_ofNat_of_lt (by omega)
  have hself := h.1
  unfold mergeNext
  simp only [haddr, hself]
  cases after with
  | nil => exact if_neg (by simp [rowStart])
  | cons d ds =>
      have hdext := extent_pos d
      rw [span_cons] at ha
      have hhead : header m (a + (32 + size)) = _ := h.2.1
      show (if BitVec.ofNat 64 (a + (32 + size)) ≠ 0 ∧
        (header m (BitVec.ofNat 64 (a + (32 + size))).toNat).free = true then _ else m) = m
      rw [toNat_ofNat_of_lt (by omega), hhead, hused d rfl]
      exact if_neg (by simp)

/-- The forward merge is `absorb`. -/
theorem mergeNext_spec (h : Seg m 0 a prev (⟨size, true⟩ :: after))
    (ha : a + (32 + size) + span after < 2 ^ 64) :
    Seg (mergeNext m (BitVec.ofNat 64 a)) 0 a prev
      (⟨(absorb size after).1, true⟩ :: (absorb size after).2) ∧
    AgreeOff a (a + (32 + size) + span after) m (mergeNext m (BitVec.ofNat 64 a)) := by
  cases after with
  | nil =>
      rw [mergeNext_used h (by simp) ha]
      exact ⟨h, AgreeOff.refl _ _ _⟩
  | cons d ds =>
      cases hfree : d.free
      · rw [mergeNext_used h (by simp [hfree]) ha, absorb_of_used hfree]
        exact ⟨h, AgreeOff.refl _ _ _⟩
      · rw [mergeNext_free h hfree ha, absorb_of_free hfree]
        have hdext : d.extent = 32 + d.size := rfl
        have hend : a + (32 + size) + d.extent = a + (32 + (size + d.extent)) := by omega
        rw [span_cons, ← Nat.add_assoc (a + (32 + size))] at ha ⊢
        have hds : Seg m 0 (a + (32 + size) + d.extent) _ ds := h.2.2
        rw [hend] at hds ha ⊢
        exact joinRow_spec h.1 hds ha

/-- A free predecessor is given the block. -/
theorem mergePrev_free {e : Chunk} {rest : List Chunk}
    (h : Seg m 0 a prev (e :: ⟨size, true⟩ :: rest)) (hfree : e.free = true) (ha0 : 0 < a)
    (ha : a + e.extent + (32 + size) + span rest < 2 ^ 64) :
    mergePrev m (BitVec.ofNat 64 (a + e.extent)) = joinRow m a (e.size + (32 + size)) rest := by
  have hext : e.extent = 32 + e.size := rfl
  have haddr : (BitVec.ofNat 64 a).toNat = a := toNat_ofNat_of_lt (by omega)
  have hnode : (BitVec.ofNat 64 (a + e.extent)).toNat = a + e.extent := toNat_ofNat_of_lt (by omega)
  have hprev : header m a = ⟨_, _, _, BitVec.ofNat 64 (a + e.extent)⟩ := h.1
  have hself : header m (a + e.extent) = ⟨_, _, BitVec.ofNat 64 a,
      BitVec.ofNat 64 (rowStart 0 (a + e.extent + (32 + size)) rest)⟩ := h.2.1
  have hsize : BitVec.ofNat 64 e.size + (headerSize + BitVec.ofNat 64 size) =
      BitVec.ofNat 64 (e.size + (32 + size)) := by
    rw [BitVec.ofNat_add, BitVec.ofNat_add]
    rfl
  have hend : a + e.extent + (32 + size) = a + (32 + (e.size + (32 + size))) := by omega
  unfold mergePrev joinRow
  simp only [hnode, hself, haddr, hprev, hfree]
  rw [if_pos ⟨ofNat_ne_zero ha0 (by omega), trivial⟩, hsize]
  -- the block's own header stands apart from the two writes to its predecessor's
  set m₁ := setSize m (BitVec.ofNat 64 a) (BitVec.ofNat 64 (e.size + (32 + size))) with hm₁
  have hoff₁ : AgreeOff a (a + 32) m m₁ := by
    have := setSize_agreeOff m (BitVec.ofNat 64 a) (BitVec.ofNat 64 (e.size + (32 + size)))
    rwa [haddr] at this
  have hoff₂ : ∀ w, AgreeOff a (a + 32) m (setNext m₁ (BitVec.ofNat 64 a) w) := by
    intro w
    have := setNext_agreeOff m₁ (BitVec.ofNat 64 a) w
    rw [haddr] at this
    exact hoff₁.trans this
  rw [header_agreeOff hoff₁ (by omega), hself, hend]
  dsimp only
  rw [header_agreeOff (hoff₂ _) (by omega), hself, hend]

/-- A predecessor in use stays. -/
theorem mergePrev_used {e : Chunk} {rest : List Chunk}
    (h : Seg m 0 a prev (e :: ⟨size, true⟩ :: rest)) (hused : e.free = false)
    (ha : a + e.extent < 2 ^ 64) : mergePrev m (BitVec.ofNat 64 (a + e.extent)) = m := by
  have hext := extent_pos e
  have hself : header m (a + e.extent) = ⟨_, _, BitVec.ofNat 64 a, _⟩ := h.2.1
  unfold mergePrev
  rw [toNat_ofNat_of_lt ha, hself]
  dsimp only
  rw [toNat_ofNat_of_lt (by omega), h.1, hused]
  exact if_neg (by simp)

/-- The first block has no predecessor. -/
theorem mergePrev_first {rest : List Chunk} (h : Seg m 0 a 0 (⟨size, true⟩ :: rest))
    (ha : a < 2 ^ 64) : mergePrev m (BitVec.ofNat 64 a) = m := by
  have hself := h.1
  unfold mergePrev
  rw [toNat_ofNat_of_lt ha, hself]
  exact if_neg (by simp)

/-- The backward merge finishes `release`. -/
theorem mergePrev_spec {rest : List Chunk} : ∀ (before : List Chunk) {m : Mem} {a prev : Nat},
    Seg m 0 a prev (before ++ ⟨size, true⟩ :: rest) → (before = [] → prev = 0) → 0 < a →
    a + span before + (32 + size) + span rest < 2 ^ 64 →
    Seg (mergePrev m (BitVec.ofNat 64 (a + span before))) 0 a prev
      (mergeBack before size rest) ∧
    AgreeOff a (a + span before + (32 + size) + span rest) m
      (mergePrev m (BitVec.ofNat 64 (a + span before)))
  | [], m, a, prev, h, hprev, ha0, ha => by
    obtain rfl := hprev rfl
    rw [span_nil, Nat.add_zero] at ha ⊢
    rw [mergePrev_first h (by omega)]
    exact ⟨h, AgreeOff.refl _ _ _⟩
  | [e], m, a, prev, h, _, ha0, ha => by
    rw [span_cons, span_nil, Nat.add_zero] at ha ⊢
    cases hfree : e.free
    · rw [mergePrev_used h hfree (by omega),
        show mergeBack [e] size rest = e :: ⟨size, true⟩ :: rest by simp [mergeBack, hfree]]
      exact ⟨h, AgreeOff.refl _ _ _⟩
    · rw [mergePrev_free h hfree ha0 ha, show mergeBack [e] size rest =
        ⟨e.size + (32 + size), true⟩ :: rest by simp [mergeBack, hfree, headerBytes]]
      have hext : e.extent = 32 + e.size := rfl
      have hend : a + e.extent + (32 + size) = a + (32 + (e.size + (32 + size))) := by omega
      have hhead := h.1
      have hrest : Seg m 0 (a + e.extent + (32 + size)) _ rest := h.2.2
      rw [hfree] at hhead
      rw [hend] at hrest ha ⊢
      exact joinRow_spec hhead hrest ha
  | e :: e' :: before, m, a, prev, h, _, ha0, ha => by
    have hext := extent_pos e
    have hnode : a + span (e :: e' :: before) = a + e.extent + span (e' :: before) := by
      rw [span_cons, Nat.add_assoc]
    rw [hnode] at ha ⊢
    obtain ⟨hrow, hoff⟩ := mergePrev_spec (e' :: before) h.2 (by simp) (by omega) ha
    obtain ⟨d, ds, hback, -⟩ := mergeBack_head e' before size rest
    refine ⟨⟨?_, hrow⟩, hoff.mono (by omega) (Nat.le_refl _)⟩
    rw [header_agreeOff hoff (by omega), hback]
    exact h.1

/-- `node->free = true`. -/
theorem markFree_spec (h : Seg m 0 a prev (⟨size, false⟩ :: after))
    (ha : a + (32 + size) + span after < 2 ^ 64) :
    Seg (setFree m (BitVec.ofNat 64 a) true) 0 a prev (⟨size, true⟩ :: after) ∧
    AgreeOff a (a + (32 + size) + span after) m (setFree m (BitVec.ofNat 64 a) true) := by
  have hself := header_setFree m (BitVec.ofNat 64 a) true
  have hoff := setFree_agreeOff m (BitVec.ofNat 64 a) true
  rw [toNat_ofNat_of_lt (by omega)] at hself hoff
  have hrest : a + (32 + size) ≤ a + Chunk.extent ⟨size, false⟩ := Nat.le_refl _
  refine ⟨⟨?_, h.2.agreeOff hoff (by omega)⟩, hoff.mono (Nat.le_refl _) (by omega)⟩
  rw [hself, h.1]
  rfl

theorem ptr_sub_headerSize (b : Nat) :
    BitVec.ofNat 64 (b + headerBytes) - headerSize = BitVec.ofNat 64 b := by
  rw [BitVec.ofNat_add, show BitVec.ofNat 64 headerBytes = headerSize from rfl,
    BitVec.add_sub_cancel]

/-- The block between `before` and `after` is marked. -/
theorem markFree_row (h : Seg m 0 a prev (before ++ ⟨size, false⟩ :: after))
    (ha : a + span before + (32 + size) + span after < 2 ^ 64) :
    Seg (setFree m (BitVec.ofNat 64 (a + span before)) true) 0 a prev
      (before ++ ⟨size, true⟩ :: after) :=
  h.replace (by simp) (List.cons_ne_nil _ _) before (fun p hp => by
    rw [span_cons, show Chunk.extent ⟨size, false⟩ = 32 + size from rfl, ← Nat.add_assoc]
    exact markFree_spec hp ha)

/-- The forward merge of the block between `before` and `after`. -/
theorem mergeNext_row (h : Seg m 0 a prev (before ++ ⟨size, true⟩ :: after))
    (ha : a + span before + (32 + size) + span after < 2 ^ 64) :
    Seg (mergeNext m (BitVec.ofNat 64 (a + span before))) 0 a prev
      (before ++ ⟨(absorb size after).1, true⟩ :: (absorb size after).2) :=
  h.replace (by simp) (List.cons_ne_nil _ _) before (fun p hp => by
    rw [span_cons, show Chunk.extent ⟨size, true⟩ = 32 + size from rfl, ← Nat.add_assoc]
    exact mergeNext_spec hp ha)

/-- The statements of `kfree`, the pointer not being `NULL`. -/
theorem kfree_eq {h : Heap} (ha0 : 0 < a) (ha : a + span before + 32 < 2 ^ 64) :
    kfree h (BitVec.ofNat 64 (a + span before + headerBytes)) =
      { h with mem := mergePrev (mergeNext (setFree h.mem (BitVec.ofNat 64 (a + span before)) true)
        (BitVec.ofNat 64 (a + span before))) (BitVec.ofNat 64 (a + span before)) } := by
  unfold kfree
  rw [if_neg (ofNat_ne_zero (by omega) (by unfold headerBytes; omega)), ptr_sub_headerSize]

/-- **Freeing is `release`.** -/
theorem kfree_spec {h : Heap} (hseg : Seg h.mem 0 a 0 (before ++ ⟨size, false⟩ :: after))
    (ha0 : 0 < a) (ha : a + span before + (32 + size) + span after < 2 ^ 64) :
    Seg (kfree h (BitVec.ofNat 64 (a + span before + headerBytes))).mem 0 a 0
      (release before size after) := by
  rw [kfree_eq ha0 (by omega)]
  dsimp only
  have hnext := mergeNext_row (markFree_row hseg ha) ha
  have hfits : a + span before + (32 + (absorb size after).1) + span (absorb size after).2 < 2 ^ 64 := by
    have habsorb := absorb_span size after
    omega
  exact (mergePrev_spec before hnext (fun _ => rfl) ha0 hfits).1

/-- A payload may be written: no header is in it. -/
theorem write_payload_spec {x : Nat} {b : Byte} {c : Chunk}
    (h : Seg m 0 a prev (before ++ c :: after))
    (hlo : a + span before + headerBytes ≤ x) (hhi : x < a + span before + c.extent) :
    Seg (store8 m x b) 0 a prev (before ++ c :: after) := by
  have hoff := store8_agreeOff m x b
  unfold headerBytes at hlo
  refine h.replace (by simp) (by simp) before (fun p hp => ⟨⟨?_, ?_⟩, ?_⟩)
  · rw [header_agreeOff hoff (by omega)]
    exact hp.1
  · exact hp.2.agreeOff hoff (by omega)
  · exact hoff.mono (by omega) (by rw [span_cons]; omega)

end Kfree

end QuinKernel
