import QuinKernel.Machine.System

/-!
# A queue that writers poll (L0 framework)

A device takes items into a queue of limited length and sends them on, the
oldest first. A writer waits until the device says that the queue is empty, and
then writes one item without looking again: other writers may have written in
between. An item written to a full queue is lost.

What carries the argument is `Covered`: the items in the queue and the writers
that have seen it empty are together no more than there are writers. A queue with
room for one item of each writer therefore never overflows, and the items come
out in the order in which they were written (`lossless`).
-/

namespace QuinKernel.Machine

/-- The queue and what was sent, each item with its writer; and the writers that
have seen the queue empty and not yet written. -/
structure PolledQueue (T α : Type) where
  queue : List (T × α)
  sent : List (T × α)
  ready : T → Bool

/-- A writer sees the queue empty, or writes an item; the device sends one on. -/
inductive QueueEvent (T α : Type)
  | poll (t : T)
  | write (t : T) (a : α)
  | send

/-- Write to a queue that has room for `n` items. -/
def offer {α : Type} (n : Nat) (queue : List α) (a : α) : List α :=
  if queue.length < n then queue ++ [a] else queue

theorem offer_length_le {α : Type} {n : Nat} {queue : List α} (h : queue.length ≤ n) (a : α) :
    (offer n queue a).length ≤ n := by
  unfold offer
  split
  · simp only [List.length_append, List.length_singleton]
    omega
  · exact h

namespace PolledQueue

variable {T α : Type}

/-- The writers that are about to write. -/
def waiting [Fintype T] (q : PolledQueue T α) : Finset T :=
  Finset.univ.filter (fun t => q.ready t = true)

theorem mem_waiting [Fintype T] {q : PolledQueue T α} {t : T} :
    t ∈ q.waiting ↔ q.ready t = true := by simp [waiting]

/-- There are as many writers as items and writers about to write. -/
def Covered [Fintype T] (q : PolledQueue T α) : Prop :=
  q.queue.length + q.waiting.card ≤ Fintype.card T

/-- A writer that is about to write has room. -/
theorem Covered.room [Fintype T] {n : Nat} {q : PolledQueue T α} {t : T} (h : q.Covered)
    (hn : Fintype.card T ≤ n) (hready : q.ready t = true) : q.queue.length < n := by
  have hpos : 0 < q.waiting.card := Finset.card_pos.mpr ⟨t, mem_waiting.mpr hready⟩
  unfold Covered at h
  omega

variable [DecidableEq T]

/-- Writers that poll a queue with room for `n` items. -/
def system (n : Nat) : System (PolledQueue T α) (QueueEvent T α) where
  init q := q.queue = [] ∧ q.sent = [] ∧ ∀ t, q.ready t = false
  step q e q' :=
    match e with
    | .poll t => q.queue = [] ∧ q' = { q with ready := Function.update q.ready t true }
    | .write t a => q.ready t = true ∧
        q' = { q with queue := offer n q.queue (t, a), ready := Function.update q.ready t false }
    | .send => ∃ p rest, q.queue = p :: rest ∧ q' = { q with queue := rest, sent := q.sent ++ [p] }

/-- The items written, in order. -/
def written : List (QueueEvent T α) → List (T × α)
  | [] => []
  | .write t a :: es => (t, a) :: written es
  | _ :: es => written es

omit [DecidableEq T] in
theorem written_append (es fs : List (QueueEvent T α)) :
    written (es ++ fs) = written es ++ written fs := by
  induction es with
  | nil => rfl
  | cons e es ih =>
      cases e with
      | write t a => simp [written, ih]
      | poll t => simpa [written] using ih
      | send => simpa [written] using ih

variable [Fintype T] {n : Nat} {q q' : PolledQueue T α} {t : T} {e : QueueEvent T α}
  {es : List (QueueEvent T α)}

theorem waiting_write {ready : T → Bool} {queue sent : List (T × α)}
    (hready : ready = Function.update q.ready t false) :
    (⟨queue, sent, ready⟩ : PolledQueue T α).waiting = q.waiting.erase t := by
  ext u
  rw [mem_waiting, Finset.mem_erase, mem_waiting, hready]
  by_cases hut : u = t
  · simp [hut]
  · simp [hut]

theorem Covered.init (h : (system n).init q) : q.Covered := by
  obtain ⟨hqueue, -, hready⟩ := h
  have hnone : q.waiting = ∅ := by
    ext u
    simp [mem_waiting, hready u]
  simp [Covered, hqueue, hnone]

/-- **One step.** Seeing the queue empty leaves no items to cover, and a write turns
its writer into an item. -/
theorem Covered.step (h : q.Covered) (hstep : (system n).step q e q') : q'.Covered := by
  cases e with
  | poll t =>
      obtain ⟨hempty, rfl⟩ := hstep
      unfold Covered
      rw [hempty]
      simpa using Finset.card_le_univ _
  | write t a =>
      obtain ⟨hready, rfl⟩ := hstep
      have hmem : t ∈ q.waiting := mem_waiting.mpr hready
      have hpos : 0 < q.waiting.card := Finset.card_pos.mpr ⟨t, hmem⟩
      have hlength : (offer n q.queue (t, a)).length ≤ q.queue.length + 1 := by
        unfold offer
        split <;> simp
      unfold Covered at h ⊢
      rw [waiting_write rfl, Finset.card_erase_of_mem hmem]
      dsimp only
      omega
  | send =>
      obtain ⟨p, rest, hqueue, rfl⟩ := hstep
      unfold Covered at h ⊢
      rw [hqueue, List.length_cons] at h
      change rest.length + q.waiting.card ≤ _
      omega

/-- **Nothing is lost**, doubled or reordered, if there is room for an item of each
writer. -/
theorem lossless (hn : Fintype.card T ≤ n) (hrun : (system n).Run q es q') (h : q.Covered) :
    q'.sent ++ q'.queue = q.sent ++ q.queue ++ written es := by
  induction hrun with
  | nil => simp [written]
  | @cons q q₁ q' e es hstep _ ih =>
      rw [ih (h.step hstep)]
      cases e with
      | poll t =>
          obtain ⟨-, rfl⟩ := hstep
          rfl
      | write t a =>
          obtain ⟨hready, rfl⟩ := hstep
          simp [offer, h.room hn hready, written]
      | send =>
          obtain ⟨p, rest, hqueue, rfl⟩ := hstep
          simp [hqueue, written]

end PolledQueue

end QuinKernel.Machine
