import Mathlib

/-!
# Radix trees of tables (L0 framework)

A table is an array of entries; an entry may link to another table. `descend`
follows the links of a path from a root and yields the table it ends at;
`probe` looks a path up and yields the entry the lookup stops at, with the
number of levels left below it (0 when the lookup went all the way down).

Tables live in shared storage, so nothing in `descend` says that two paths end
at different tables. `IsTree` does: every table within `n` links of the root
is reached by one path only. Under it the two updates a map is built from have
exact effects:

* writing an entry of a bottom table changes one lookup (`Write`);
* linking a fresh, empty table under an entry that linked nowhere changes the
  lookups below that entry only, and there only from one empty entry to
  another (`Link`).

Both are relations between the tables before and after, so a client proves
them of its own storage and reads the consequences off.
-/

namespace QuinKernel.Machine.RadixTree

variable {A I E : Type} (link : E → Option A)

/-- The table the path leads to. -/
def descend (T : A → I → E) : A → List I → Option A
  | a, [] => some a
  | a, i :: p => (link (T a i)).bind (fun b => descend T b p)

/-- The entry a lookup of the path `p`, then index `j`, stops at, and how many
levels it did not descend. -/
def probe (T : A → I → E) : A → List I → I → E × Nat
  | a, [], j => (T a j, 0)
  | a, i :: p, j =>
      match link (T a i) with
      | some b => probe T b p j
      | none => (T a i, p.length + 1)

/-- The entries a lookup reads, from the root on. -/
def trail (T : A → I → E) : A → List I → I → List E
  | a, [], j => [T a j]
  | a, i :: p, j =>
      T a i :: match link (T a i) with
        | some b => trail T b p j
        | none => []

/-- `t` is a table within `n` links of `a`. -/
def IsTable (T : A → I → E) (n : Nat) (a t : A) : Prop :=
  ∃ p, p.length ≤ n ∧ descend link T a p = some t

/-- Every table within `n` links of `a` is reached by one path. -/
def IsTree (T : A → I → E) (n : Nat) (a : A) : Prop :=
  ∀ p q t, p.length ≤ n → q.length ≤ n →
    descend link T a p = some t → descend link T a q = some t → p = q

section Paths

variable {link} {T T' : A → I → E} {a t : A} {p q : List I}

theorem descend_append : ∀ (p : List I) (a : A) (q : List I),
    descend link T a (p ++ q) = (descend link T a p).bind (fun t => descend link T t q)
  | [], _, _ => rfl
  | i :: p, a, q => by
    cases hlink : link (T a i) with
    | none => simp [descend, hlink]
    | some b => simpa [descend, hlink] using descend_append p b q

theorem descend_snoc {i : I} (h : descend link T a p = some t) :
    descend link T a (p ++ [i]) = link (T t i) := by
  rw [descend_append, h]
  cases hlink : link (T t i) <;> simp [descend, hlink]

/-- A lookup whose path exists reads the table at its end. -/
theorem probe_of_descend : ∀ {p : List I} {a : A} {j : I},
    descend link T a p = some t → probe link T a p j = (T t j, 0)
  | [], _, _, h => by rw [← Option.some.inj h]; rfl
  | i :: p, a, j, h => by
    cases hlink : link (T a i) with
    | none => simp [descend, hlink] at h
    | some b =>
        simp only [descend, hlink, Option.bind_some] at h
        simp only [probe, hlink]
        exact probe_of_descend h

/-- A lookup goes through every table on its path. -/
theorem probe_append : ∀ {p : List I} {a : A} {q : List I} {j : I},
    descend link T a p = some t → probe link T a (p ++ q) j = probe link T t q j
  | [], _, _, _, h => by rw [← Option.some.inj h]; rfl
  | i :: p, a, q, j, h => by
    cases hlink : link (T a i) with
    | none => simp [descend, hlink] at h
    | some b =>
        simp only [descend, hlink, Option.bind_some] at h
        simp only [List.cons_append, probe, hlink]
        exact probe_append h

/-- A lookup stops at an entry that links nowhere. -/
theorem probe_of_stop {i j : I} (h : descend link T a p = some t) (hlink : link (T t i) = none) :
    probe link T a (p ++ i :: q) j = (T t i, q.length + 1) := by
  rw [probe_append h]
  simp [probe, hlink]

/-- A lookup whose path exists reads a link in each table on the way, and then
the entry at its end. -/
theorem trail_of_descend : ∀ {p : List I} {a : A} {j : I}, descend link T a p = some t →
    ∃ es, trail link T a p j = es ++ [T t j] ∧ ∀ e ∈ es, ∃ p₁ i p₂ u, p = p₁ ++ i :: p₂ ∧
      descend link T a p₁ = some u ∧ e = T u i ∧ (link e).isSome = true
  | [], _, _, h => by
    rw [← Option.some.inj h]
    exact ⟨[], rfl, by simp⟩
  | i :: p, a, j, h => by
    cases hlink : link (T a i) with
    | none => simp [descend, hlink] at h
    | some b =>
        simp only [descend, hlink, Option.bind_some] at h
        obtain ⟨es, hes, hread⟩ := trail_of_descend (j := j) h
        refine ⟨T a i :: es, by simp [trail, hlink, hes], fun e he => ?_⟩
        rcases List.mem_cons.mp he with rfl | he
        · exact ⟨[], i, p, a, rfl, rfl, rfl, by rw [hlink]; rfl⟩
        · obtain ⟨p₁, k, p₂, u, hsplit, hu, heq, hsome⟩ := hread e he
          exact ⟨i :: p₁, k, p₂, u, by rw [hsplit]; rfl, by simpa [descend, hlink] using hu, heq,
            hsome⟩

/-- A lookup gets no further than a table that links nowhere. -/
theorem probe_of_empty {j : I} (hempty : ∀ k, link (T a k) = none) :
    (probe link T a p j).2 = p.length := by
  cases p with
  | nil => rfl
  | cons i p => simp [probe, hempty i]

/-- A lookup that did not go all the way down stopped at such an entry. -/
theorem exists_stop_of_probe : ∀ {p : List I} {a : A} {j : I} {e : E} {n : Nat},
    probe link T a p j = (e, n + 1) →
    ∃ p₁ i p₂ t, p = p₁ ++ i :: p₂ ∧ descend link T a p₁ = some t ∧ e = T t i ∧
      link (T t i) = none
  | [], _, _, _, _, h => by simp [probe] at h
  | i :: p, a, j, e, n, h => by
    cases hlink : link (T a i) with
    | none =>
        simp only [probe, hlink, Prod.mk.injEq] at h
        exact ⟨[], i, p, a, rfl, rfl, h.1.symm, hlink⟩
    | some b =>
        simp only [probe, hlink] at h
        obtain ⟨p₁, k, p₂, t, hsplit, ht, he, hstop⟩ := exists_stop_of_probe h
        exact ⟨i :: p₁, k, p₂, t, by rw [hsplit]; rfl, by simpa [descend, hlink] using ht, he, hstop⟩

/-- A lookup that went all the way down read the table at the end of its path. -/
theorem descend_of_probe : ∀ {p : List I} {a : A} {j : I}, (probe link T a p j).2 = 0 →
    ∃ t, descend link T a p = some t
  | [], a, _, _ => ⟨a, rfl⟩
  | i :: p, a, j, h => by
    cases hlink : link (T a i) with
    | none => simp [probe, hlink] at h
    | some b =>
        simp only [probe, hlink] at h
        obtain ⟨t, ht⟩ := descend_of_probe h
        exact ⟨t, by simpa [descend, hlink] using ht⟩

/-- `descend` depends only on the entries along the path. -/
theorem descend_congr : ∀ {p : List I} {a : A},
    (∀ p₁ i p₂ t, p = p₁ ++ i :: p₂ → descend link T a p₁ = some t → T' t i = T t i) →
    descend link T' a p = descend link T a p
  | [], _, _ => rfl
  | i :: p, a, h => by
    have hhead : T' a i = T a i := h [] i p a rfl rfl
    cases hlink : link (T a i) with
    | none => simp [descend, hhead, hlink]
    | some b =>
        simp only [descend, hhead, hlink, Option.bind_some]
        refine descend_congr (fun p₁ k p₂ t hp ht => h (i :: p₁) k p₂ t (by rw [hp]; rfl) ?_)
        simpa [descend, hlink] using ht

/-- `probe` depends only on the entries along the path and the one at its end. -/
theorem probe_congr : ∀ {p : List I} {a : A} {j : I},
    (∀ p₁ i p₂ t, p = p₁ ++ i :: p₂ → descend link T a p₁ = some t → T' t i = T t i) →
    (∀ t, descend link T a p = some t → T' t j = T t j) →
    probe link T' a p j = probe link T a p j
  | [], a, j, _, hend => by simp [probe, hend a rfl]
  | i :: p, a, j, h, hend => by
    have hhead : T' a i = T a i := h [] i p a rfl rfl
    cases hlink : link (T a i) with
    | none => simp [probe, hhead, hlink]
    | some b =>
        simp only [probe, hhead, hlink]
        refine probe_congr (fun p₁ k p₂ t hp ht => h (i :: p₁) k p₂ t (by rw [hp]; rfl) ?_)
          (fun t ht => hend t ?_)
        · simpa [descend, hlink] using ht
        · simpa [descend, hlink] using ht

end Paths

/-! ## Storage that keeps every table -/

/-- No entry of a table within `n` links of `a` changed. -/
def Keeps (n : Nat) (a : A) (T T' : A → I → E) : Prop :=
  ∀ t, IsTable link T n a t → ∀ i, T' t i = T t i

section Keeps

variable {link} {T T' : A → I → E} {a t : A} {p : List I} {n : Nat}

theorem Keeps.descend (h : Keeps link n a T T') (hp : p.length ≤ n) :
    descend link T' a p = descend link T a p := by
  refine descend_congr (fun p₁ i p₂ t hsplit ht => h t ⟨p₁, ?_, ht⟩ i)
  rw [hsplit, List.length_append] at hp
  omega

theorem Keeps.probe {j : I} (h : Keeps link n a T T') (hp : p.length ≤ n) :
    probe link T' a p j = probe link T a p j := by
  refine probe_congr (fun p₁ i p₂ t hsplit ht => h t ⟨p₁, ?_, ht⟩ i)
    (fun t ht => h t ⟨p, hp, ht⟩ j)
  rw [hsplit, List.length_append] at hp
  omega

theorem Keeps.isTable (h : Keeps link n a T T') :
    IsTable link T' n a t ↔ IsTable link T n a t :=
  exists_congr (fun _ => and_congr_right (fun hp => by rw [h.descend hp]))

theorem Keeps.isTree (h : Keeps link n a T T') (ht : IsTree link T n a) :
    IsTree link T' n a := by
  intro p q t hp hq hpt hqt
  rw [h.descend hp] at hpt
  rw [h.descend hq] at hqt
  exact ht p q t hp hq hpt hqt

end Keeps

/-! ## Writing an entry of a bottom table -/

/-- Entry `j` of the table at the end of `p`, `n` links down, becomes `e`; no
other entry of a table changes. -/
structure Write (n : Nat) (a : A) (p : List I) (j : I) (e : E) (T T' : A → I → E) : Prop where
  depth : p.length = n
  table : ∃ t, descend link T a p = some t ∧ T' t j = e ∧
    ∀ u i, IsTable link T n a u → (u ≠ t ∨ i ≠ j) → T' u i = T u i

section Write

variable {link} {T T' : A → I → E} {a u : A} {p q : List I} {j k : I} {e : E} {n : Nat}

theorem Write.descend (h : Write link n a p j e T T') (htree : IsTree link T n a)
    (hq : q.length ≤ n) : descend link T' a q = descend link T a q := by
  obtain ⟨t, ht, _, hkeep⟩ := h.table
  refine descend_congr (fun q₁ i q₂ u hsplit hu => ?_)
  have hlen : q₁.length < n := by
    rw [hsplit, List.length_append, List.length_cons] at hq
    omega
  refine hkeep u i ⟨q₁, by omega, hu⟩ (.inl ?_)
  rintro rfl
  have := htree q₁ p u (by omega) (by rw [h.depth]) hu ht
  rw [this, h.depth] at hlen
  omega

theorem Write.isTable (h : Write link n a p j e T T') (htree : IsTree link T n a) :
    IsTable link T' n a u ↔ IsTable link T n a u :=
  exists_congr (fun _ => and_congr_right (fun hp => by rw [h.descend htree hp]))

theorem Write.isTree (h : Write link n a p j e T T') (htree : IsTree link T n a) :
    IsTree link T' n a := by
  intro q r t hq hr hqt hrt
  rw [h.descend htree hq] at hqt
  rw [h.descend htree hr] at hrt
  exact htree q r t hq hr hqt hrt

/-- The written path looks up the new entry. -/
theorem Write.probe_self (h : Write link n a p j e T T') (htree : IsTree link T n a) :
    probe link T' a p j = (e, 0) := by
  obtain ⟨t, ht, he, _⟩ := h.table
  have hdesc := h.descend htree (q := p) (by rw [h.depth])
  rw [probe_of_descend (hdesc.trans ht), he]

/-- Every other path looks up what it did. -/
theorem Write.probe_other (h : Write link n a p j e T T') (htree : IsTree link T n a)
    (hq : q.length = n) (hne : q ≠ p ∨ k ≠ j) :
    probe link T' a q k = probe link T a q k := by
  obtain ⟨t, ht, _, hkeep⟩ := h.table
  refine probe_congr (fun q₁ i q₂ u hsplit hu => ?_) (fun u hu => ?_)
  · have hlen : q₁.length < n := by
      rw [hsplit, List.length_append, List.length_cons] at hq
      omega
    refine hkeep u i ⟨q₁, by omega, hu⟩ (.inl ?_)
    rintro rfl
    have := htree q₁ p u (by omega) (by rw [h.depth]) hu ht
    rw [this, h.depth] at hlen
    omega
  · refine hkeep u k ⟨q, by omega, hu⟩ ?_
    rcases hne with hne | hne
    · exact .inl (fun heq => hne (htree q p u (by omega) (by rw [h.depth]) hu (heq ▸ ht)))
    · exact .inr hne

end Write

/-! ## Linking a fresh table -/

/-- Entry `i` of the table at the end of `p`, above the bottom, linked nowhere
and now links to `f`, which was no table and links nowhere itself; no other
entry of a table changes. -/
structure Link (n : Nat) (a : A) (p : List I) (i : I) (f : A) (T T' : A → I → E) : Prop where
  depth : p.length < n
  fresh : ¬ IsTable link T n a f
  empty : ∀ k, link (T' f k) = none
  table : ∃ t, descend link T a p = some t ∧ link (T t i) = none ∧ link (T' t i) = some f ∧
    ∀ u k, IsTable link T n a u → (u ≠ t ∨ k ≠ i) → T' u k = T u k

section Link

variable {link} {T T' : A → I → E} {a f u : A} {p q r : List I} {i j : I} {n : Nat}

/-- Before the link nothing hangs below the entry. -/
theorem Link.descend_below_before (h : Link link n a p i f T T') :
    descend link T a (p ++ i :: r) = none := by
  obtain ⟨t, ht, hnone, _⟩ := h.table
  rw [descend_append, ht]
  simp [descend, hnone]

/-- The tables above the new link are where they were. -/
theorem Link.descend_above (h : Link link n a p i f T T') (htree : IsTree link T n a)
    (hq : q.length ≤ n) (hoff : ¬ p ++ [i] <+: q) :
    descend link T' a q = descend link T a q := by
  obtain ⟨t, ht, _, _, hkeep⟩ := h.table
  refine descend_congr (fun q₁ k q₂ u hsplit hu => ?_)
  have hlen : q₁.length ≤ n := by
    rw [hsplit, List.length_append] at hq
    omega
  refine hkeep u k ⟨q₁, hlen, hu⟩ ?_
  by_contra hsame
  obtain ⟨rfl, rfl⟩ : u = t ∧ k = i := by simpa [not_or] using hsame
  have hqp := htree q₁ p u hlen (Nat.le_of_lt h.depth) hu ht
  exact hoff ⟨q₂, by rw [hsplit, hqp]; simp⟩

theorem Link.descend_prefix (h : Link link n a p i f T T') (htree : IsTree link T n a) :
    descend link T' a p = descend link T a p := by
  refine h.descend_above htree (Nat.le_of_lt h.depth) (fun hpre => ?_)
  have := hpre.length_le
  simp at this

/-- The new link leads to the fresh table. -/
theorem Link.descend_self (h : Link link n a p i f T T') (htree : IsTree link T n a) :
    descend link T' a (p ++ [i]) = some f := by
  obtain ⟨t, ht, _, hlink, _⟩ := h.table
  rw [descend_snoc ((h.descend_prefix htree).trans ht), hlink]

/-- Nothing hangs below the fresh table. -/
theorem Link.descend_below (h : Link link n a p i f T T') (htree : IsTree link T n a) :
    descend link T' a (p ++ i :: j :: r) = none := by
  rw [show p ++ i :: j :: r = (p ++ [i]) ++ j :: r by simp, descend_append, h.descend_self htree]
  simp [descend, h.empty j]

/-- Every table is the fresh one or was there before. -/
theorem Link.descend_cases (h : Link link n a p i f T T') (htree : IsTree link T n a)
    (hq : q.length ≤ n) (hu : descend link T' a q = some u) :
    (q = p ++ [i] ∧ u = f) ∨ descend link T a q = some u := by
  by_cases hpre : p ++ [i] <+: q
  · obtain ⟨r, rfl⟩ := hpre
    cases r with
    | nil =>
        rw [List.append_nil] at hu
        rw [h.descend_self htree] at hu
        exact .inl ⟨by simp, (Option.some.inj hu).symm⟩
    | cons k r =>
        rw [show p ++ [i] ++ k :: r = p ++ i :: k :: r by simp, h.descend_below htree] at hu
        exact absurd hu (by simp)
  · rw [h.descend_above htree hq hpre] at hu
    exact .inr hu

theorem Link.isTable (h : Link link n a p i f T T') (htree : IsTree link T n a)
    (hu : IsTable link T' n a u) : u = f ∨ IsTable link T n a u := by
  obtain ⟨q, hq, hqu⟩ := hu
  rcases h.descend_cases htree hq hqu with ⟨_, rfl⟩ | hold
  · exact .inl rfl
  · exact .inr ⟨q, hq, hold⟩

/-- No table is lost. -/
theorem Link.isTable_stays (h : Link link n a p i f T T') (htree : IsTree link T n a)
    (hu : IsTable link T n a u) : IsTable link T' n a u := by
  obtain ⟨q, hq, hqu⟩ := hu
  refine ⟨q, hq, (h.descend_above htree hq (fun hpre => ?_)).trans hqu⟩
  obtain ⟨r, rfl⟩ := hpre
  rw [List.append_assoc, List.singleton_append, h.descend_below_before] at hqu
  exact absurd hqu (by simp)

theorem Link.isTree (h : Link link n a p i f T T') (htree : IsTree link T n a) :
    IsTree link T' n a := by
  intro q r u hq hr hqu hru
  rcases h.descend_cases htree hq hqu with ⟨hqp, rfl⟩ | hqold
  · rcases h.descend_cases htree hr hru with ⟨hrp, _⟩ | hrold
    · rw [hqp, hrp]
    · exact absurd ⟨r, hr, hrold⟩ h.fresh
  · rcases h.descend_cases htree hr hru with ⟨_, rfl⟩ | hrold
    · exact absurd ⟨q, hq, hqold⟩ h.fresh
    · exact htree q r u hq hr hqold hrold

/-- Lookups that do not pass the new link find what they did. -/
theorem Link.probe_other (h : Link link n a p i f T T') (htree : IsTree link T n a)
    (hq : q.length = n) (hoff : ¬ p ++ [i] <+: q) :
    probe link T' a q j = probe link T a q j := by
  obtain ⟨t, ht, _, _, hkeep⟩ := h.table
  refine probe_congr (fun q₁ k q₂ u hsplit hu => ?_) (fun u hu => ?_)
  · have hlen : q₁.length ≤ n := by
      rw [hsplit, List.length_append] at hq
      omega
    refine hkeep u k ⟨q₁, hlen, hu⟩ ?_
    by_contra hsame
    obtain ⟨rfl, rfl⟩ : u = t ∧ k = i := by simpa [not_or] using hsame
    have hqp := htree q₁ p u hlen (Nat.le_of_lt h.depth) hu ht
    exact hoff ⟨q₂, by rw [hsplit, hqp]; simp⟩
  · refine hkeep u j ⟨q, by omega, hu⟩ (.inl ?_)
    rintro rfl
    have hqp := htree q p u (by omega) (Nat.le_of_lt h.depth) hu ht
    have := h.depth
    rw [← hqp, hq] at this
    omega

/-- A lookup that passes the new link stopped at the entry it replaces, and now
stops in the fresh table. -/
theorem Link.probe_below (h : Link link n a p i f T T') (htree : IsTree link T n a) :
    (∃ t, descend link T a p = some t ∧
      probe link T a (p ++ i :: r) j = (T t i, r.length + 1)) ∧
    ∃ k m, probe link T' a (p ++ i :: r) j = (T' f k, m) := by
  obtain ⟨t, ht, hnone, _⟩ := h.table
  refine ⟨⟨t, ht, probe_of_stop ht hnone⟩, ?_⟩
  rw [show p ++ i :: r = (p ++ [i]) ++ r by simp, probe_append (h.descend_self htree)]
  cases r with
  | nil => exact ⟨j, 0, rfl⟩
  | cons k r => exact ⟨k, r.length + 1, by simp [probe, h.empty k]⟩

end Link

end QuinKernel.Machine.RadixTree
