import Mathlib

/-!
# Rings of links

`LinkRing next a l`: following `next` from `a` meets the nodes of `l`, each once,
and then `a` again. The two operations on a ring are to walk one link
(`LinkRing.advance`) and to put a fresh node behind the one we stand on
(`LinkRing.insertAfter`); `insertAfter_iterate` says what an insertion does to
distances: every node moves one link further away.
-/

namespace QuinKernel.Machine

variable {T : Type}

/-- The nodes met from `a` are `l`, each once, and the walk closes. -/
structure LinkRing (next : T → T) (a : T) (l : List T) : Prop where
  nodes : List.iterate next a l.length = l
  nodup : l.Nodup
  nonempty : l ≠ []
  closed : next^[l.length] a = a

/-- Two link functions that agree along a walk walk alike. -/
theorem iterate_congr {f g : T → T} (n : Nat) (a : T)
    (h : ∀ y ∈ List.iterate f a n, g y = f y) :
    List.iterate g a n = List.iterate f a n ∧ g^[n] a = f^[n] a := by
  induction n generalizing a with
  | zero => exact ⟨rfl, rfl⟩
  | succ n ih =>
      have ha : g a = f a := h a (by simp [List.iterate])
      obtain ⟨hlist, hend⟩ := ih (f a) (fun y hy => h y (List.mem_cons_of_mem _ hy))
      simp only [List.iterate, Function.iterate_succ_apply, ha, hlist, hend, and_self]

theorem LinkRing.single {next : T → T} {a : T} (h : next a = a) : LinkRing next a [a] :=
  ⟨rfl, List.nodup_singleton a, List.cons_ne_nil _ _, h⟩

/-- A ring depends on the links of its nodes. -/
theorem LinkRing.congr {f g : T → T} {a : T} {l : List T} (h : LinkRing f a l)
    (hfg : ∀ t ∈ l, g t = f t) : LinkRing g a l := by
  obtain ⟨hlist, hend⟩ := iterate_congr l.length a (fun y hy => hfg y (by rwa [h.nodes] at hy))
  exact ⟨hlist.trans h.nodes, h.nodup, h.nonempty, hend.trans h.closed⟩

/-- A ring starts with the node it is walked from. -/
theorem LinkRing.exists_cons {next : T → T} {a : T} {l : List T} (h : LinkRing next a l) :
    ∃ t, l = a :: t ∧ List.iterate next (next a) t.length = t := by
  have hnodes := h.nodes
  cases l with
  | nil => exact absurd rfl h.nonempty
  | cons b t =>
      obtain ⟨rfl, ht⟩ := List.cons.inj hnodes
      exact ⟨t, rfl, ht⟩

theorem LinkRing.length_pos {next : T → T} {a : T} {l : List T} (h : LinkRing next a l) :
    0 < l.length :=
  List.length_pos_of_ne_nil h.nonempty

/-- A node of a ring is met on the way back to its start. -/
theorem LinkRing.exists_walk {next : T → T} {a t : T} {l : List T} (h : LinkRing next a l)
    (ht : t ∈ l) : ∃ d, 1 ≤ d ∧ d ≤ l.length ∧ next^[d] a = t := by
  rw [← h.nodes] at ht
  obtain ⟨d, hd, rfl⟩ := List.mem_iterate.mp ht
  cases d with
  | zero => exact ⟨l.length, h.length_pos, Nat.le_refl _, h.closed⟩
  | succ d => exact ⟨d + 1, by omega, by omega, rfl⟩

/-- Walking one link turns the ring by one. -/
theorem LinkRing.advance {next : T → T} {a : T} {l : List T} (h : LinkRing next a l) :
    LinkRing next (next a) (l.rotate 1) := by
  obtain ⟨t, rfl, ht⟩ := h.exists_cons
  have hrot : (a :: t).rotate 1 = t ++ [a] := by
    rw [List.rotate_cons_succ, List.rotate_zero]
  have hback : next^[t.length] (next a) = a := h.closed
  refine ⟨?_, ?_, ?_, ?_⟩
  · rw [hrot, List.length_append, List.length_singleton, List.iterate_add, ht, hback]
    rfl
  · rw [List.nodup_rotate]
    exact h.nodup
  · rw [ne_eq, List.rotate_eq_nil_iff]
    exact List.cons_ne_nil _ _
  · rw [List.length_rotate, List.length_cons, Function.iterate_succ_apply', hback]

theorem LinkRing.perm_insert {next : T → T} {a x : T} {l : List T} (h : LinkRing next a l) :
    (a :: x :: l.tail).Perm (x :: l) := by
  obtain ⟨t, rfl, -⟩ := h.exists_cons
  exact List.Perm.swap _ _ _

section Insert

variable [DecidableEq T]

/-- The links after `x` is put between `a` and its successor. -/
def insertAfter (next : T → T) (a x : T) : T → T :=
  Function.update (Function.update next x (next a)) a x

theorem insertAfter_self (next : T → T) (a x : T) : insertAfter next a x a = x :=
  Function.update_self ..

theorem insertAfter_new (next : T → T) {a x : T} (h : x ≠ a) :
    insertAfter next a x x = next a := by
  rw [insertAfter, Function.update_of_ne h, Function.update_self]

theorem insertAfter_other (next : T → T) {a x y : T} (ha : y ≠ a) (hx : y ≠ x) :
    insertAfter next a x y = next y := by
  rw [insertAfter, Function.update_of_ne ha, Function.update_of_ne hx]

variable {next : T → T} {a x : T} {l : List T}

/-- Behind the insertion the walk is the old one. -/
theorem LinkRing.insertAfter_walk (h : LinkRing next a l) (hx : x ∉ l) {n : Nat} (hn : n < l.length) :
    List.iterate (insertAfter next a x) a (n + 2) = a :: x :: List.iterate next (next a) n ∧
    (insertAfter next a x)^[n + 2] a = next^[n + 1] a := by
  obtain ⟨t, rfl, ht⟩ := h.exists_cons
  obtain ⟨hat, -⟩ := List.nodup_cons.mp h.nodup
  have hxa : x ≠ a := fun heq => hx (heq ▸ List.mem_cons_self)
  have hsame : ∀ y ∈ List.iterate next (next a) n, insertAfter next a x y = next y := by
    intro y hy
    have hyt : y ∈ t := by
      rw [← ht, List.mem_iterate]
      obtain ⟨k, hk, rfl⟩ := List.mem_iterate.mp hy
      exact ⟨k, by simp only [List.length_cons] at hn; omega, rfl⟩
    refine insertAfter_other next (fun heq => hat (heq ▸ hyt)) (fun heq => hx ?_)
    exact heq ▸ List.mem_cons_of_mem _ hyt
  obtain ⟨hlist, hend⟩ := iterate_congr n (next a) hsame
  constructor
  · rw [List.iterate, List.iterate, insertAfter_self, insertAfter_new next hxa, hlist]
  · rw [Function.iterate_succ_apply, Function.iterate_succ_apply, insertAfter_self,
      insertAfter_new next hxa, hend]
    rfl

/-- An insertion moves every node one link away. -/
theorem LinkRing.insertAfter_iterate (h : LinkRing next a l) (hx : x ∉ l) {d : Nat} (hd : 1 ≤ d)
    (hdl : d ≤ l.length) : (insertAfter next a x)^[d + 1] a = next^[d] a := by
  obtain ⟨n, rfl⟩ : ∃ n, d = n + 1 := ⟨d - 1, by omega⟩
  exact (h.insertAfter_walk hx hdl).2

/-- Inserting a fresh node keeps the ring. -/
theorem LinkRing.insertAfter (h : LinkRing next a l) (hx : x ∉ l) :
    LinkRing (insertAfter next a x) a (a :: x :: l.tail) := by
  obtain ⟨t, rfl, ht⟩ := h.exists_cons
  obtain ⟨hat, htn⟩ := List.nodup_cons.mp h.nodup
  obtain ⟨hlist, hend⟩ := h.insertAfter_walk hx (n := t.length) (by simp)
  rw [ht] at hlist
  refine ⟨hlist, ?_, List.cons_ne_nil _ _, hend.trans h.closed⟩
  simp only [List.mem_cons, not_or] at hx
  refine List.nodup_cons.mpr ⟨?_, List.nodup_cons.mpr ⟨hx.2, htn⟩⟩
  simp only [List.mem_cons, not_or]
  exact ⟨Ne.symm hx.1, hat⟩

end Insert

end QuinKernel.Machine
