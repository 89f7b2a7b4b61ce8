import Mathlib.Data.List.Basic
import Mathlib.Logic.Function.Basic

/-!
# Ring buffers

A queue in an array used around its end: the cells from `tail` up to `head`
hold the queue, oldest first. One cell stays empty, so that equal indices mean
an empty queue and never a full one.
-/

namespace QuinKernel.Machine

variable {α : Type} {size : Nat} {cell : Nat → α} {head tail : Nat} {q : List α}

/-- One turn around the ring at most. -/
theorem wrap_eq {a b n : Nat} (ha : a < n) (hb : b ≤ n) :
    (a + b) % n = if a + b < n then a + b else a + b - n := by
  split
  · next h => exact Nat.mod_eq_of_lt h
  · next h =>
      rw [Nat.mod_eq_sub_mod (Nat.le_of_not_lt h)]
      apply Nat.mod_eq_of_lt
      omega

/-- The cells from `tail` up to `head` hold `q`. -/
structure RingHolds (size : Nat) (cell : Nat → α) (head tail : Nat) (q : List α) : Prop where
  tail_lt : tail < size
  room : q.length < size
  head_eq : head = (tail + q.length) % size
  cells : ∀ i, i < q.length → q[i]? = some (cell ((tail + i) % size))

namespace RingHolds

theorem nil {i : Nat} (hi : i < size) : RingHolds size cell i i [] where
  tail_lt := hi
  room := Nat.zero_lt_of_lt hi
  head_eq := (Nat.mod_eq_of_lt hi).symm
  cells := fun j hj => absurd hj (Nat.not_lt_zero j)

theorem head_lt (h : RingHolds size cell head tail q) : head < size := by
  rw [h.head_eq]
  exact Nat.mod_lt _ (Nat.zero_lt_of_lt h.tail_lt)

theorem empty_iff (h : RingHolds size cell head tail q) : tail = head ↔ q = [] := by
  rw [h.head_eq, wrap_eq h.tail_lt (Nat.le_of_lt h.room), ← List.length_eq_zero_iff]
  have := h.tail_lt
  have := h.room
  split <;> omega

/-- The cell after `head` is the oldest one exactly when one cell is left. -/
theorem full_iff (h : RingHolds size cell head tail q) :
    (head + 1) % size = tail ↔ q.length + 1 = size := by
  have := h.tail_lt
  have := h.room
  rw [wrap_eq h.head_lt (by omega), h.head_eq, wrap_eq h.tail_lt (Nat.le_of_lt h.room)]
  split <;> split <;> omega

/-- Writing the cell at `head` and moving `head` on appends. -/
theorem push (h : RingHolds size cell head tail q) (hfull : q.length + 1 < size) (x : α) :
    RingHolds size (Function.update cell head x) ((head + 1) % size) tail (q ++ [x]) := by
  have htail := h.tail_lt
  have hhead : (tail + q.length) % size = head := h.head_eq.symm
  refine ⟨htail, ?_, ?_, ?_⟩
  · rw [List.length_append]
    exact hfull
  · rw [← hhead, Nat.mod_add_mod, List.length_append, List.length_singleton, Nat.add_assoc]
  · intro i hi
    rw [List.length_append, List.length_singleton] at hi
    by_cases hlast : i = q.length
    · rw [hlast, hhead, Function.update_self, List.getElem?_concat_length]
    · -- the cells of the old queue are not the one written
      have hlt : i < q.length := by omega
      have hne : (tail + i) % size ≠ head := by
        rw [← hhead, wrap_eq htail (by omega), wrap_eq htail (by omega)]
        split <;> split <;> omega
      rw [List.getElem?_append_left hlt, Function.update_of_ne hne]
      exact h.cells i hlt

/-- The oldest element stands at `tail`. -/
theorem front {x : α} (h : RingHolds size cell head tail (x :: q)) : cell tail = x := by
  have hcell := h.cells 0 (Nat.zero_lt_succ _)
  rw [Nat.add_zero, Nat.mod_eq_of_lt h.tail_lt] at hcell
  exact (Option.some.inj hcell).symm

/-- Moving `tail` on removes the oldest element. -/
theorem pop {x : α} (h : RingHolds size cell head tail (x :: q)) :
    RingHolds size cell head ((tail + 1) % size) q := by
  have hroom := h.room
  rw [List.length_cons] at hroom
  refine ⟨Nat.mod_lt _ (by omega), by omega, ?_, ?_⟩
  · rw [h.head_eq, Nat.mod_add_mod, List.length_cons, Nat.add_assoc, Nat.add_comm 1]
  · intro i hi
    have hcell := h.cells (i + 1) (Nat.succ_lt_succ hi)
    rw [List.getElem?_cons_succ] at hcell
    rw [hcell, Nat.mod_add_mod, Nat.add_assoc, Nat.add_comm 1]

end RingHolds

end QuinKernel.Machine
