import Mathlib

/-!
# A heap as a row of chunks

What the heap is for, with no memory in it: a row of chunks, each a header of
`headerBytes` and a payload, that fills a range end to end. `take` is first
fit with splitting, `release` is freeing with a merge on either side. The
facts proved of them are the ones an allocator owes its callers: the row keeps
its span, sizes stay multiples of the granule, two neighbours are never both
free, and the payloads in use change by exactly the one handed out or given
back.
-/

namespace QuinKernel.Heap

/-- A block: the payload's size, and whether it is free. -/
structure Chunk where
  size : Nat
  free : Bool
  deriving DecidableEq

/-- Bytes of a header. -/
def headerBytes : Nat := 32

/-- Sizes are multiples of this, and no smaller remainder is split off. -/
def granule : Nat := 16

/-- Header and payload. -/
def Chunk.extent (c : Chunk) : Nat := headerBytes + c.size

/-- The bytes a row of chunks covers. -/
def span : List Chunk → Nat
  | [] => 0
  | c :: cs => c.extent + span cs

/-- The payload addresses in use, for a row that starts at `a`. -/
def inUse (a : Nat) : List Chunk → List Nat
  | [] => []
  | c :: cs =>
      if c.free then inUse (a + c.extent) cs
      else (a + headerBytes) :: inUse (a + c.extent) cs

/-- The chunks in use, by payload address and size. -/
def used (a : Nat) : List Chunk → List (Nat × Nat)
  | [] => []
  | c :: cs =>
      if c.free then used (a + c.extent) cs
      else (a + headerBytes, c.size) :: used (a + c.extent) cs

/-- Use `n` bytes of a chunk, splitting off what is left if a block fits in it. -/
def carve (n : Nat) (c : Chunk) : List Chunk :=
  if headerBytes + granule ≤ c.size - n then
    [⟨n, false⟩, ⟨c.size - n - headerBytes, true⟩]
  else [⟨c.size, false⟩]

/-- First fit: the offset of the chunk used, and the row after. -/
def take (n : Nat) : List Chunk → Option (Nat × List Chunk)
  | [] => none
  | c :: cs =>
      if c.free = true ∧ n ≤ c.size then some (0, carve n c ++ cs)
      else (take n cs).map (fun (o, cs) => (c.extent + o, c :: cs))

/-- A freed chunk of `size` bytes takes in the chunk after it, if that is free:
the size it grows to, and the chunks left after it. -/
def absorb (size : Nat) : List Chunk → Nat × List Chunk
  | [] => (size, [])
  | d :: ds => if d.free then (size + d.extent, ds) else (size, d :: ds)

/-- A free chunk of `size` bytes stands between `before` and `after`; its free
predecessor takes it in. -/
def mergeBack : List Chunk → Nat → List Chunk → List Chunk
  | [], size, after => ⟨size, true⟩ :: after
  | [e], size, after =>
      if e.free then ⟨e.size + (headerBytes + size), true⟩ :: after
      else e :: ⟨size, true⟩ :: after
  | e :: e' :: before, size, after => e :: mergeBack (e' :: before) size after

/-- Free the chunk of `size` bytes between `before` and `after`. -/
def release (before : List Chunk) (size : Nat) (after : List Chunk) : List Chunk :=
  mergeBack before (absorb size after).1 (absorb size after).2

/-- Neighbours are not both free. -/
def Coalesced (cs : List Chunk) : Prop := cs.IsChain (fun c d => ¬ (c.free = true ∧ d.free = true))

/-- Every size is a multiple of the granule. -/
def Granular (cs : List Chunk) : Prop := ∀ c ∈ cs, c.size % granule = 0

@[simp] theorem span_nil : span [] = 0 := rfl
@[simp] theorem span_cons (c : Chunk) (cs : List Chunk) : span (c :: cs) = c.extent + span cs := rfl

theorem span_append (cs ds : List Chunk) : span (cs ++ ds) = span cs + span ds := by
  induction cs with
  | nil => simp
  | cons c cs ih => simp [ih, Nat.add_assoc]

theorem inUse_append (a : Nat) (cs ds : List Chunk) :
    inUse a (cs ++ ds) = inUse a cs ++ inUse (a + span cs) ds := by
  induction cs generalizing a with
  | nil => simp [inUse]
  | cons c cs ih =>
      simp only [List.cons_append, inUse, ih, span_cons, Nat.add_assoc]
      split <;> simp

theorem inUse_cons (a : Nat) (c : Chunk) (cs : List Chunk) :
    inUse a (c :: cs) = (if c.free then [] else [a + headerBytes]) ++ inUse (a + c.extent) cs := by
  rw [inUse]
  split <;> rfl

theorem inUse_ge {a p : Nat} {cs : List Chunk} (h : p ∈ inUse a cs) : a + headerBytes ≤ p := by
  induction cs generalizing a with
  | nil => simp [inUse] at h
  | cons c cs ih =>
      have hrest : p ∈ inUse (a + c.extent) cs → a + headerBytes ≤ p := by
        intro hp
        have := ih hp
        unfold Chunk.extent at this
        omega
      unfold inUse at h
      split at h
      · exact hrest h
      · rcases List.mem_cons.mp h with rfl | hp
        · exact Nat.le_refl _
        · exact hrest hp

/-- Payload addresses in use are distinct. -/
theorem inUse_nodup (a : Nat) (cs : List Chunk) : (inUse a cs).Nodup := by
  induction cs generalizing a with
  | nil => exact .nil
  | cons c cs ih =>
      unfold inUse
      split
      · exact ih _
      · refine List.nodup_cons.mpr ⟨fun h => ?_, ih _⟩
        have := inUse_ge h
        unfold Chunk.extent headerBytes at this
        omega

theorem inUse_eq_used (a : Nat) (cs : List Chunk) : inUse a cs = (used a cs).map Prod.fst := by
  induction cs generalizing a with
  | nil => rfl
  | cons c cs ih =>
      unfold inUse used
      split
      · exact ih _
      · rw [List.map_cons, ih]

theorem used_cons (a : Nat) (c : Chunk) (cs : List Chunk) :
    used a (c :: cs) =
      (if c.free then [] else [(a + headerBytes, c.size)]) ++ used (a + c.extent) cs := by
  rw [used]
  split <;> rfl

theorem used_append (a : Nat) (cs ds : List Chunk) :
    used a (cs ++ ds) = used a cs ++ used (a + span cs) ds := by
  induction cs generalizing a with
  | nil => simp [used]
  | cons c cs ih =>
      rw [List.cons_append, used_cons, used_cons, ih, List.append_assoc, span_cons, Nat.add_assoc]

/-! ## First fit -/

theorem span_carve {n : Nat} {c : Chunk} (h : n ≤ c.size) : span (carve n c) = c.extent := by
  unfold carve
  split
  · simp only [span_cons, span_nil, Chunk.extent]
    omega
  · simp [Chunk.extent]

/-- A chunk is used from its start; what is split off is free. -/
theorem carve_first {n : Nat} {c : Chunk} (h : n ≤ c.size) :
    ∃ size rest, carve n c = ⟨size, false⟩ :: rest ∧ n ≤ size ∧ size ≤ c.size ∧
      ∀ a, used a rest = [] := by
  unfold carve
  split
  · exact ⟨n, _, rfl, Nat.le_refl n, h, fun a => rfl⟩
  · exact ⟨c.size, [], rfl, h, Nat.le_refl _, fun a => rfl⟩

/-- No chunk is found exactly when none fits. -/
theorem take_eq_none {n : Nat} {cs : List Chunk} :
    take n cs = none ↔ ∀ d ∈ cs, ¬(d.free = true ∧ n ≤ d.size) := by
  induction cs with
  | nil => exact iff_of_true rfl (fun d hd => absurd hd List.not_mem_nil)
  | cons c cs ih =>
      rw [List.forall_mem_cons, ← ih, take]
      split
      · next hfit => simp [hfit]
      · next hfit => simp [hfit]

/-- **First fit**: the chunk taken is the first that is free and large enough. -/
theorem take_firstFit {n o : Nat} {cs cs' : List Chunk} (h : take n cs = some (o, cs')) :
    ∃ before c after, cs = before ++ c :: after ∧ c.free = true ∧ n ≤ c.size ∧
      (∀ d ∈ before, ¬(d.free = true ∧ n ≤ d.size)) ∧ o = span before ∧
      cs' = before ++ (carve n c ++ after) := by
  induction cs generalizing o cs' with
  | nil => simp [take] at h
  | cons c cs ih =>
      unfold take at h
      split at h
      · next hfit =>
          obtain ⟨rfl, rfl⟩ := Prod.mk.inj (Option.some.inj h)
          exact ⟨[], c, cs, rfl, hfit.1, hfit.2, fun d hd => absurd hd List.not_mem_nil, rfl, rfl⟩
      · next hfit =>
          obtain ⟨⟨o', cs''⟩, htake, heq⟩ := Option.map_eq_some_iff.mp h
          obtain ⟨rfl, rfl⟩ := Prod.mk.inj heq
          obtain ⟨before, d, after, rfl, hfree, hsize, hfirst, rfl, rfl⟩ := ih htake
          exact ⟨c :: before, d, after, rfl, hfree, hsize,
            List.forall_mem_cons.mpr ⟨hfit, hfirst⟩, rfl, rfl⟩

/-- Two chunks of a row are the same or one ends before the other starts. -/
theorem splits_apart {before before' after after' : List Chunk} {c d : Chunk}
    (h : before ++ c :: after = before' ++ d :: after') :
    (before = before' ∧ c = d) ∨ span before + c.extent ≤ span before' ∨
      (d ∈ before ∧ span before' + d.extent ≤ span before) := by
  rcases List.append_eq_append_iff.mp h with ⟨mid, rfl, hrest⟩ | ⟨mid, rfl, hrest⟩
  · cases mid with
    | nil =>
        obtain ⟨rfl, -⟩ := List.cons.inj hrest
        exact .inl ⟨(List.append_nil _).symm, rfl⟩
    | cons x mid =>
        obtain ⟨rfl, -⟩ := List.cons.inj hrest
        right; left
        rw [span_append, span_cons]
        omega
  · cases mid with
    | nil =>
        obtain ⟨rfl, -⟩ := List.cons.inj hrest
        exact .inl ⟨List.append_nil _, rfl⟩
    | cons x mid =>
        obtain ⟨rfl, -⟩ := List.cons.inj hrest
        right; right
        refine ⟨by simp, ?_⟩
        rw [span_append, span_cons]
        omega

theorem take_span {n o : Nat} {cs cs' : List Chunk} (h : take n cs = some (o, cs')) :
    span cs' = span cs := by
  induction cs generalizing o cs' with
  | nil => simp [take] at h
  | cons c cs ih =>
      unfold take at h
      split at h
      · next hfit =>
          obtain ⟨-, rfl⟩ := Prod.mk.inj (Option.some.inj h)
          rw [span_append, span_carve hfit.2, span_cons]
      · obtain ⟨⟨o', ds⟩, hrest, heq⟩ := Option.map_eq_some_iff.mp h
        obtain ⟨-, rfl⟩ := Prod.mk.inj heq
        rw [span_cons, span_cons, ih hrest]

theorem carve_granular {n : Nat} {c : Chunk} (hn : n % granule = 0) (hc : c.size % granule = 0) :
    Granular (carve n c) := by
  unfold carve granule at *
  split
  · intro d hd
    unfold granule headerBytes at *
    rcases List.mem_cons.mp hd with rfl | hd
    · exact hn
    · rw [List.mem_singleton.mp hd]
      dsimp only
      omega
  · intro d hd
    rw [List.mem_singleton.mp hd]
    exact hc

theorem take_granular {n o : Nat} {cs cs' : List Chunk} (hn : n % granule = 0) (hcs : Granular cs)
    (h : take n cs = some (o, cs')) : Granular cs' := by
  induction cs generalizing o cs' with
  | nil => simp [take] at h
  | cons c cs ih =>
      have htail : Granular cs := fun d hd => hcs d (List.mem_cons_of_mem _ hd)
      unfold take at h
      split at h
      · obtain ⟨-, rfl⟩ := Prod.mk.inj (Option.some.inj h)
        intro d hd
        rcases List.mem_append.mp hd with hd | hd
        · exact carve_granular hn (hcs c List.mem_cons_self) d hd
        · exact htail d hd
      · obtain ⟨⟨o', ds⟩, hrest, heq⟩ := Option.map_eq_some_iff.mp h
        obtain ⟨-, rfl⟩ := Prod.mk.inj heq
        intro d hd
        rcases List.mem_cons.mp hd with rfl | hd
        · exact hcs d List.mem_cons_self
        · exact ih htail hrest d hd

/-- First fit never puts a free chunk in front of a row that had none there. -/
theorem take_head {n o : Nat} {cs cs' : List Chunk} (h : take n cs = some (o, cs')) :
    ∀ d' ∈ cs'.head?, d'.free = true → ∃ d ∈ cs.head?, d.free = true := by
  cases cs with
  | nil => simp [take] at h
  | cons c cs =>
      unfold take at h
      split at h
      · obtain ⟨-, rfl⟩ := Prod.mk.inj (Option.some.inj h)
        intro d' hd' hfree
        unfold carve at hd'
        split at hd' <;> simp at hd' <;> simp [← hd'] at hfree
      · obtain ⟨⟨o', ds⟩, hrest, heq⟩ := Option.map_eq_some_iff.mp h
        obtain ⟨-, rfl⟩ := Prod.mk.inj heq
        intro d' hd' hfree
        exact ⟨d', hd', hfree⟩

theorem take_coalesced {n o : Nat} {cs cs' : List Chunk} (hcs : Coalesced cs)
    (h : take n cs = some (o, cs')) : Coalesced cs' := by
  unfold Coalesced at *
  induction cs generalizing o cs' with
  | nil => simp [take] at h
  | cons c cs ih =>
      obtain ⟨hhead, htail⟩ := List.isChain_cons.mp hcs
      unfold take at h
      split at h
      · next hfit =>
          obtain ⟨-, rfl⟩ := Prod.mk.inj (Option.some.inj h)
          -- what follows a free chunk is in use, so the split-off block may stand before it
          have hnext : ∀ d ∈ cs.head?, d.free = false := by
            intro d hd
            have := hhead d hd
            simpa [hfit.1] using this
          unfold carve
          split
          · simp only [List.cons_append, List.nil_append, List.isChain_cons_cons]
            refine ⟨by simp, List.isChain_cons.mpr ⟨fun d hd => ?_, htail⟩⟩
            simp [hnext d hd]
          · exact List.isChain_cons.mpr ⟨by simp, htail⟩
      · obtain ⟨⟨o', ds⟩, hrest, heq⟩ := Option.map_eq_some_iff.mp h
        obtain ⟨-, rfl⟩ := Prod.mk.inj heq
        refine List.isChain_cons.mpr ⟨fun d' hd' => ?_, ih htail hrest⟩
        rintro ⟨hc, hfree⟩
        obtain ⟨d, hd, hdfree⟩ := take_head hrest d' hd' hfree
        exact hhead d hd ⟨hc, hdfree⟩

/-- First fit puts one chunk in use, of `n` bytes at least, and moves no other. -/
theorem take_used {n o : Nat} {cs cs' : List Chunk} (h : take n cs = some (o, cs')) (a : Nat) :
    ∃ l₁ l₂ size, used a cs = l₁ ++ l₂ ∧
      used a cs' = l₁ ++ (a + o + headerBytes, size) :: l₂ ∧ n ≤ size := by
  obtain ⟨before, c, after, rfl, hfree, hfit, -, rfl, rfl⟩ := take_firstFit h
  obtain ⟨size, rest, hcarve, hle, -, hrest⟩ := carve_first hfit
  have hspan := span_carve hfit
  rw [hcarve, span_cons] at hspan
  refine ⟨used a before, used (a + span before + c.extent) after, size, ?_, ?_, hle⟩
  · rw [used_append, used_cons, if_pos hfree, List.nil_append]
  · rw [hcarve, List.cons_append, used_append, used_cons, if_neg (by simp), used_append, hrest,
      List.nil_append, Nat.add_assoc (a + span before), hspan]
    rfl

/-- First fit hands out one payload and moves no other. -/
theorem take_inUse {n o : Nat} {cs cs' : List Chunk} (h : take n cs = some (o, cs')) (a : Nat) :
    ∃ l₁ l₂, inUse a cs = l₁ ++ l₂ ∧ inUse a cs' = l₁ ++ (a + o + headerBytes) :: l₂ := by
  obtain ⟨l₁, l₂, size, hold, hnew, -⟩ := take_used h a
  refine ⟨l₁.map Prod.fst, l₂.map Prod.fst, ?_, ?_⟩
  · rw [inUse_eq_used, hold, List.map_append]
  · rw [inUse_eq_used, hnew, List.map_append, List.map_cons]

/-! ## Freeing -/

theorem absorb_of_free {d : Chunk} (h : d.free = true) (size : Nat) (ds : List Chunk) :
    absorb size (d :: ds) = (size + d.extent, ds) := by
  simp [absorb, h]

theorem absorb_of_used {d : Chunk} (h : d.free = false) (size : Nat) (ds : List Chunk) :
    absorb size (d :: ds) = (size, d :: ds) := by
  simp [absorb, h]

theorem absorb_span (size : Nat) (after : List Chunk) :
    (absorb size after).1 + span (absorb size after).2 = size + span after := by
  cases after with
  | nil => rfl
  | cons d ds =>
      cases h : d.free
      · rw [absorb_of_used h]
      · rw [absorb_of_free h]
        simp only [span_cons]
        omega

theorem absorb_used (size : Nat) (after : List Chunk) (b : Nat) :
    used (b + (absorb size after).1) (absorb size after).2 = used (b + size) after := by
  cases after with
  | nil => rfl
  | cons d ds =>
      cases h : d.free
      · rw [absorb_of_used h]
      · rw [absorb_of_free h]
        simp only [used, h, if_true, Nat.add_assoc]

theorem absorb_granular {size : Nat} {after : List Chunk} (hsize : size % granule = 0)
    (hafter : Granular after) :
    (absorb size after).1 % granule = 0 ∧ Granular (absorb size after).2 := by
  cases after with
  | nil => exact ⟨hsize, hafter⟩
  | cons d ds =>
      have hd := hafter d List.mem_cons_self
      cases h : d.free
      · rw [absorb_of_used h]
        exact ⟨hsize, hafter⟩
      · rw [absorb_of_free h]
        refine ⟨?_, fun e he => hafter e (List.mem_cons_of_mem _ he)⟩
        unfold granule Chunk.extent headerBytes at *
        omega

/-- What follows an absorbing chunk is in use. -/
theorem absorb_coalesced (size : Nat) {after : List Chunk} (hafter : Coalesced after) :
    (∀ d ∈ (absorb size after).2.head?, d.free = false) ∧ Coalesced (absorb size after).2 := by
  cases after with
  | nil => exact ⟨by simp [absorb], hafter⟩
  | cons d ds =>
      cases h : d.free
      · rw [absorb_of_used h]
        exact ⟨fun e he => by rw [← Option.some.inj he]; exact h, hafter⟩
      · obtain ⟨hhead, htail⟩ := List.isChain_cons.mp hafter
        rw [absorb_of_free h]
        refine ⟨fun e he => ?_, htail⟩
        have := hhead e he
        simpa [h] using this

theorem mergeBack_span (before : List Chunk) (size : Nat) (after : List Chunk) :
    span (mergeBack before size after) = span before + (headerBytes + size) + span after := by
  induction before with
  | nil =>
      simp only [mergeBack, span_cons, span_nil, Chunk.extent]
      omega
  | cons e before ih =>
      cases before with
      | nil =>
          simp only [mergeBack]
          split <;> simp only [span_cons, span_nil, Chunk.extent] <;> omega
      | cons e' before =>
          simp only [mergeBack, span_cons, ih]
          omega

theorem mergeBack_granular {before after : List Chunk} {size : Nat} (hbefore : Granular before)
    (hsize : size % granule = 0) (hafter : Granular after) :
    Granular (mergeBack before size after) := by
  induction before with
  | nil =>
      intro c hc
      rcases List.mem_cons.mp hc with rfl | hc
      · exact hsize
      · exact hafter c hc
  | cons e before ih =>
      have he := hbefore e List.mem_cons_self
      cases before with
      | nil =>
          simp only [mergeBack]
          split
          · intro c hc
            rcases List.mem_cons.mp hc with rfl | hc
            · unfold granule headerBytes at *
              dsimp only
              omega
            · exact hafter c hc
          · intro c hc
            rcases List.mem_cons.mp hc with rfl | hc
            · exact he
            rcases List.mem_cons.mp hc with rfl | hc
            · exact hsize
            · exact hafter c hc
      | cons e' before =>
          intro c hc
          rw [mergeBack] at hc
          rcases List.mem_cons.mp hc with rfl | hc
          · exact he
          · exact ih (fun d hd => hbefore d (List.mem_cons_of_mem _ hd)) c hc

/-- The first chunk of a row stays as free as it was. -/
theorem mergeBack_head (e : Chunk) (before : List Chunk) (size : Nat) (after : List Chunk) :
    ∃ d rest, mergeBack (e :: before) size after = d :: rest ∧ d.free = e.free := by
  cases before with
  | nil =>
      simp only [mergeBack]
      split
      · next h => exact ⟨_, _, rfl, h.symm⟩
      · exact ⟨_, _, rfl, rfl⟩
  | cons e' before => exact ⟨_, _, rfl, rfl⟩

theorem mergeBack_coalesced {before after : List Chunk} {size : Nat} (hbefore : Coalesced before)
    (hafter : Coalesced after) (hnext : ∀ d ∈ after.head?, d.free = false) :
    Coalesced (mergeBack before size after) := by
  have hmerged : ∀ n : Nat, Coalesced (⟨n, true⟩ :: after) :=
    fun n => List.isChain_cons.mpr ⟨fun d hd => by simp [hnext d hd], hafter⟩
  induction before with
  | nil => exact hmerged _
  | cons e before ih =>
      cases before with
      | nil =>
          simp only [mergeBack]
          split
          · exact hmerged _
          · next he => exact List.isChain_cons_cons.mpr ⟨by simp [he], hmerged _⟩
      | cons e' before =>
          rw [mergeBack]
          obtain ⟨hhead, htail⟩ := List.isChain_cons_cons.mp hbefore
          obtain ⟨d, rest, hrel, hd⟩ := mergeBack_head e' before size after
          have := ih htail
          rw [hrel] at this ⊢
          exact List.isChain_cons_cons.mpr ⟨by rwa [hd], this⟩

theorem mergeBack_used (before : List Chunk) (size : Nat) (after : List Chunk) (a : Nat) :
    used a (mergeBack before size after) =
      used a before ++ used (a + span before + (headerBytes + size)) after := by
  induction before generalizing a with
  | nil => simp [mergeBack, used, Chunk.extent]
  | cons e before ih =>
      cases before with
      | nil =>
          have hpos : a + (headerBytes + e.size) + (headerBytes + size) =
              a + (headerBytes + (e.size + (headerBytes + size))) := by omega
          simp only [mergeBack]
          split
          · next he => simp [used, he, Chunk.extent, hpos]
          · next he => simp [used, he, Chunk.extent]
      | cons e' before =>
          have hpos : a + e.extent + span (e' :: before) = a + span (e :: e' :: before) := by
            simp only [span_cons]
            omega
          rw [mergeBack, used_cons, ih, used_cons a e, List.append_assoc, hpos]

theorem release_span (before : List Chunk) (size : Nat) (after : List Chunk) :
    span (release before size after) = span before + (headerBytes + size) + span after := by
  have habsorb := absorb_span size after
  rw [release, mergeBack_span]
  omega

theorem release_granular {before after : List Chunk} {size : Nat}
    (h : Granular (before ++ ⟨size, false⟩ :: after)) : Granular (release before size after) := by
  obtain ⟨hsize, hafter⟩ := absorb_granular (h ⟨size, false⟩ (by simp))
    (fun c hc => h c (by simp [hc]) : Granular after)
  exact mergeBack_granular (fun c hc => h c (by simp [hc])) hsize hafter

theorem release_coalesced {before after : List Chunk} {size : Nat}
    (h : Coalesced (before ++ ⟨size, false⟩ :: after)) : Coalesced (release before size after) := by
  obtain ⟨hbefore, hrest, -⟩ := List.isChain_append.mp h
  obtain ⟨hnext, hafter⟩ := absorb_coalesced size (List.isChain_cons.mp hrest).2
  exact mergeBack_coalesced hbefore hafter hnext

/-- Freeing takes the chunk out of those in use and changes no other. -/
theorem release_used (before : List Chunk) (size : Nat) (after : List Chunk) (a : Nat) :
    used a (release before size after) =
      used a before ++ used (a + span before + (headerBytes + size)) after := by
  have habsorb := absorb_used size after (a + span before + headerBytes)
  rw [release, mergeBack_used, ← Nat.add_assoc, habsorb, ← Nat.add_assoc]

/-- Freeing takes the chunk's payload out of use and moves no other. -/
theorem release_inUse (before : List Chunk) (size : Nat) (after : List Chunk) (a : Nat) :
    inUse a (release before size after) =
      inUse a before ++ inUse (a + span before + (headerBytes + size)) after := by
  rw [inUse_eq_used, release_used, List.map_append, ← inUse_eq_used, ← inUse_eq_used]

/-- A chunk in use, by address and size, is a chunk of the row. -/
theorem exists_of_used {a p k : Nat} {cs : List Chunk} (h : (p, k) ∈ used a cs) :
    ∃ before after, cs = before ++ ⟨k, false⟩ :: after ∧ p = a + span before + headerBytes := by
  induction cs generalizing a with
  | nil => cases h
  | cons c cs ih =>
      rw [used_cons, List.mem_append] at h
      rcases h with h | h
      · split at h
        · cases h
        · next hused =>
          obtain ⟨rfl, rfl⟩ := Prod.mk.inj (List.mem_singleton.mp h)
          obtain ⟨size, free⟩ := c
          obtain rfl : free = false := by simpa using hused
          exact ⟨[], cs, rfl, rfl⟩
      · obtain ⟨before, after, rfl, rfl⟩ := ih h
        exact ⟨c :: before, after, rfl, by rw [span_cons, ← Nat.add_assoc]⟩

/-- It lies in the row. -/
theorem used_end_le {a p k : Nat} {cs : List Chunk} (h : (p, k) ∈ used a cs) :
    a + headerBytes ≤ p ∧ p + k ≤ a + span cs := by
  obtain ⟨before, after, rfl, rfl⟩ := exists_of_used h
  have hext : Chunk.extent ⟨k, false⟩ = headerBytes + k := rfl
  rw [span_append, span_cons]
  omega

/-- Chunks in use at different places lie apart, headers included. -/
theorem used_apart {a p q k j : Nat} {cs : List Chunk} (hp : (p, k) ∈ used a cs)
    (hq : (q, j) ∈ used a cs) (hne : p ≠ q) : p + k + headerBytes ≤ q ∨ q + j + headerBytes ≤ p := by
  obtain ⟨before, after, rfl, rfl⟩ := exists_of_used hp
  obtain ⟨before', after', hsplit, rfl⟩ := exists_of_used hq
  have hext : Chunk.extent ⟨k, false⟩ = headerBytes + k := rfl
  have hext' : Chunk.extent ⟨j, false⟩ = headerBytes + j := rfl
  rcases splits_apart hsplit with ⟨rfl, -⟩ | hlater | ⟨-, hearlier⟩
  · exact absurd rfl hne
  · omega
  · omega

/-- A payload in use belongs to a chunk of the row. -/
theorem exists_of_inUse {a p : Nat} {cs : List Chunk} (h : p ∈ inUse a cs) :
    ∃ before size after, cs = before ++ ⟨size, false⟩ :: after ∧
      p = a + span before + headerBytes := by
  rw [inUse_eq_used] at h
  obtain ⟨⟨p, size⟩, hu, rfl⟩ := List.mem_map.mp h
  obtain ⟨before, after, hsplit, hpos⟩ := exists_of_used hu
  exact ⟨before, size, after, hsplit, hpos⟩

/-! ## The row is determined by what is in use -/

/-- In a coalesced row, a free chunk reaches up to the next chunk in use, or to
the end of the row. -/
theorem Coalesced.free_reaches {a : Nat} {c : Chunk} {cs : List Chunk}
    (h : Coalesced (c :: cs)) (hc : c.free = true) :
    a + c.extent =
      ((used a (c :: cs)).head?.map (fun u => u.1 - headerBytes)).getD (a + span (c :: cs)) := by
  obtain ⟨hhead, -⟩ := List.isChain_cons.mp h
  rw [used_cons, if_pos hc, List.nil_append]
  cases cs with
  | nil => rfl
  | cons d ds =>
      have hd : d.free = false := by
        have := hhead d rfl
        simpa [hc] using this
      rw [used_cons, hd]
      show a + c.extent = a + c.extent + headerBytes - headerBytes
      omega

theorem used_ge {a : Nat} {u : Nat × Nat} {cs : List Chunk} (h : u ∈ used a cs) :
    a + headerBytes ≤ u.1 := by
  have hmem : u.1 ∈ inUse a cs := by
    rw [inUse_eq_used]
    exact List.mem_map_of_mem h
  exact inUse_ge hmem

/-- A free first chunk and one in use cannot start rows with the same chunks in
use. -/
theorem used_ne_of_first {a : Nat} {c d : Chunk} {cs ds : List Chunk} (hc : c.free = true)
    (hd : d.free = false) : used a (c :: cs) ≠ used a (d :: ds) := by
  intro heq
  rw [used_cons, used_cons, hc, hd] at heq
  have hmem : (a + headerBytes, d.size) ∈ used (a + c.extent) cs := by
    have heq : used (a + c.extent) cs = _ := heq
    rw [heq]
    exact List.mem_cons_self
  have hge := used_ge hmem
  unfold Chunk.extent headerBytes at hge
  dsimp only at hge
  omega

theorem eq_nil_of_span {cs : List Chunk} (h : span cs = 0) : cs = [] := by
  cases cs with
  | nil => rfl
  | cons c cs =>
      rw [span_cons] at h
      unfold Chunk.extent headerBytes at h
      omega

/-- **A coalesced row is determined by its chunks in use**: two rows over the
same range with the same chunks in use are the same. -/
theorem Coalesced.unique {a : Nat} {cs ds : List Chunk} (hcs : Coalesced cs)
    (hds : Coalesced ds) (hspan : span cs = span ds) (hused : used a cs = used a ds) :
    cs = ds := by
  induction cs generalizing a ds with
  | nil => exact (eq_nil_of_span hspan.symm).symm
  | cons c cs ih =>
      cases ds with
      | nil => exact eq_nil_of_span hspan
      | cons d ds =>
          -- the first chunks are the same
          have hfirst : c = d := by
            cases hc : c.free <;> cases hd : d.free
            · rw [used_cons, used_cons, hc, hd] at hused
              have hsize := (Prod.mk.inj (List.cons.inj hused).1).2
              cases c
              cases d
              subst hc hd hsize
              rfl
            · exact absurd hused.symm (used_ne_of_first hd hc)
            · exact absurd hused (used_ne_of_first hc hd)
            · have hreach := hcs.free_reaches (a := a) hc
              rw [hused, hspan, ← hds.free_reaches hd] at hreach
              cases c
              cases d
              subst hc hd
              unfold Chunk.extent at hreach
              rw [Chunk.mk.injEq]
              exact ⟨by dsimp only at hreach; omega, rfl⟩
          subst hfirst
          rw [used_cons, used_cons] at hused
          rw [span_cons, span_cons] at hspan
          rw [ih (List.isChain_cons.mp hcs).2 (List.isChain_cons.mp hds).2 (by omega)
            (List.append_cancel_left hused)]

/-! ## The allocator's own bytes -/

/-- `x` is a byte of a header, for a row that starts at `a`. -/
def InHeader : Nat → List Chunk → Nat → Prop
  | _, [], _ => False
  | a, c :: cs, x => (a ≤ x ∧ x < a + headerBytes) ∨ InHeader (a + c.extent) cs x

/-- `x` is a byte of a header or of a free chunk. -/
def Own : Nat → List Chunk → Nat → Prop
  | _, [], _ => False
  | a, c :: cs, x =>
      (a ≤ x ∧ (x < a + headerBytes ∨ c.free = true ∧ x < a + c.extent)) ∨ Own (a + c.extent) cs x

theorem InHeader.own {a x : Nat} {cs : List Chunk} (h : InHeader a cs x) : Own a cs x := by
  induction cs generalizing a with
  | nil => exact h
  | cons c cs ih =>
      rcases h with ⟨hlo, hhi⟩ | h
      · exact .inl ⟨hlo, .inl hhi⟩
      · exact .inr (ih h)

theorem Own.ge {a x : Nat} {cs : List Chunk} (h : Own a cs x) : a ≤ x := by
  induction cs generalizing a with
  | nil => exact h.elim
  | cons c cs ih =>
      rcases h with ⟨hlo, -⟩ | h
      · exact hlo
      · exact Nat.le_trans (Nat.le_add_right _ _) (ih h)

theorem Own.lt {a x : Nat} {cs : List Chunk} (h : Own a cs x) : x < a + span cs := by
  induction cs generalizing a with
  | nil => exact h.elim
  | cons c cs ih =>
      rw [span_cons]
      rcases h with ⟨-, hhi | ⟨-, hhi⟩⟩ | h
      · unfold Chunk.extent
        omega
      · omega
      · have := ih h
        omega

theorem inHeader_append {a x : Nat} (cs ds : List Chunk) :
    InHeader a (cs ++ ds) x ↔ InHeader a cs x ∨ InHeader (a + span cs) ds x := by
  induction cs generalizing a with
  | nil => simp [InHeader]
  | cons c cs ih => simp only [List.cons_append, InHeader, ih, span_cons, Nat.add_assoc, or_assoc]

/-- **Payloads in use are nobody else's**: none of their bytes is the allocator's. -/
theorem not_own_of_used {a p k x : Nat} {cs : List Chunk} (h : (p, k) ∈ used a cs) (hlo : p ≤ x)
    (hhi : x < p + k) : ¬Own a cs x := by
  induction cs generalizing a with
  | nil => cases h
  | cons c cs ih =>
      rw [used_cons] at h
      rintro (⟨hge, hown⟩ | hown)
      · -- the chunk's own bytes end before the payloads behind it
        rcases List.mem_append.mp h with h | h
        · split at h
          · cases h
          · next hused =>
            obtain ⟨rfl, rfl⟩ := Prod.mk.inj (List.mem_singleton.mp h)
            rcases hown with hlt | ⟨hfree, -⟩
            · omega
            · exact hused hfree
        · have hp := used_ge h
          unfold Chunk.extent at *
          dsimp only at hp
          omega
      · rcases List.mem_append.mp h with h | h
        · split at h
          · cases h
          · obtain ⟨rfl, rfl⟩ := Prod.mk.inj (List.mem_singleton.mp h)
            have hge := hown.ge
            unfold Chunk.extent at hge
            omega
        · exact ih h hown

/-- Which chunk a byte of the allocator belongs to. -/
theorem own_chunk {a x : Nat} {cs : List Chunk} (h : Own a cs x) :
    ∃ before c after, cs = before ++ c :: after ∧ a + span before ≤ x ∧
      (x < a + span before + headerBytes ∨ c.free = true ∧ x < a + span before + c.extent) := by
  induction cs generalizing a with
  | nil => exact h.elim
  | cons c cs ih =>
      rcases h with ⟨hlo, hown⟩ | h
      · exact ⟨[], c, cs, rfl, hlo, hown⟩
      · obtain ⟨before, d, after, rfl, hown⟩ := ih h
        refine ⟨c :: before, d, after, rfl, ?_⟩
        rwa [span_cons, ← Nat.add_assoc]

/-- Absorbing a chunk makes no new header. -/
theorem inHeader_absorb {a size x : Nat} {free free' : Bool} {after : List Chunk}
    (h : InHeader a (⟨(absorb size after).1, free⟩ :: (absorb size after).2) x) :
    InHeader a (⟨size, free'⟩ :: after) x := by
  cases after with
  | nil => exact h
  | cons d ds =>
      cases hd : d.free
      · rw [absorb_of_used hd] at h
        exact h
      · rw [absorb_of_free hd] at h
        rcases h with h | h
        · exact .inl h
        · have hend : a + Chunk.extent ⟨size + d.extent, free⟩ =
              a + Chunk.extent ⟨size, free'⟩ + d.extent := by
            unfold Chunk.extent
            dsimp only
            omega
          rw [hend] at h
          exact .inr (.inr h)

end QuinKernel.Heap
