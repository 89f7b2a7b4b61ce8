import QuinKernel.Pmm.Init
import QuinKernel.Machine.System

/-!
# The allocator and its clients

`pmmSystem memmap` runs the frame allocator from any state `pmm_init` leaves on
`memmap` against arbitrary clients: they allocate, hand addresses back, and
write into the frames they hold. A client's view is the list of addresses it
was given and has not freed since.

The invariant `Owned` splits the managed frames into free ones and held ones.
It survives every step whose `pmm_free_frame` argument lies in no reserved
frame and is the base of the held frame it lies in, if any (`Releasable`).
The check in `pmm_free_frame` is weaker than that: it reads one bit that means
both *allocated* and *reserved*.
-/

namespace QuinKernel

open Machine

/-- The allocator and the addresses its clients hold. -/
structure PmmClient where
  pmm : Pmm
  held : List Word

/-- What a client does, with the result it sees. -/
inductive PmmCall
  | alloc (result : Word)
  | free (physAddr : Word)
  | write (x : Nat) (b : Byte)

/-- Two addresses lie in the same frame. -/
abbrev sameFrame (a b : Word) : Prop := a.toNat / 4096 = b.toNat / 4096

/-- The memory after a client writes one byte. -/
def Pmm.write (p : Pmm) (x : Nat) (b : Byte) : Pmm := { p with mem := store8 p.mem x b }

/-- One step of a client. A write stays inside a frame the client holds. -/
def PmmClient.Step (s : PmmClient) (e : PmmCall) (s' : PmmClient) : Prop :=
  match e with
  | .alloc r =>
      pmmAllocFrame s.pmm = (r, s'.pmm) ∧
        s'.held = if r = 0 then s.held else r :: s.held
  | .free a =>
      pmmFreeFrame s.pmm a = .ok s'.pmm ∧
        s'.held = s.held.filter (fun b => ¬ sameFrame b a)
  | .write x b =>
      (∃ a ∈ s.held, a.toNat ≤ x ∧ x < a.toNat + 4096) ∧
        s'.pmm = s.pmm.write x b ∧ s'.held = s.held

/-- The state after a step, if the client sees what the step says. -/
def PmmClient.after (s : PmmClient) : PmmCall → Option PmmClient
  | .alloc r =>
      match pmmAllocFrame s.pmm with
      | (phys, p) => if phys = r then some ⟨p, if r = 0 then s.held else r :: s.held⟩ else none
  | .free a => (pmmFreeFrame s.pmm a).toOption.map
      (fun p => ⟨p, s.held.filter (fun b => ¬ sameFrame b a)⟩)
  | .write x b =>
      if s.held.any (fun a => a.toNat ≤ x ∧ x < a.toNat + 4096) then
        some ⟨s.pmm.write x b, s.held⟩
      else none

theorem PmmClient.step_of_after {s s' : PmmClient} {e : PmmCall} (h : s.after e = some s') :
    s.Step e s' := by
  cases e with
  | alloc r =>
      simp only [after] at h
      split at h
      · next hr =>
          cases h
          exact ⟨Prod.ext hr rfl, rfl⟩
      · cases h
  | free a =>
      obtain ⟨p, hp, rfl⟩ := Option.map_eq_some_iff.mp h
      refine ⟨?_, rfl⟩
      cases hcall : pmmFreeFrame s.pmm a with
      | error e =>
          rw [hcall] at hp
          cases hp
      | ok q =>
          rw [hcall] at hp
          cases hp
          rfl
  | write x b =>
      simp only [after] at h
      split at h
      · next hx =>
          cases h
          obtain ⟨a, ha, hin⟩ := List.any_eq_true.mp hx
          exact ⟨⟨a, ha, of_decide_eq_true hin⟩, rfl, rfl⟩
      · cases h

/-- The allocator on a memory map, with any client. -/
def pmmSystem (memmap : List BootMemmapEntry) : System PmmClient PmmCall where
  init s := s.held = [] ∧ ∃ response m,
    bootGetMemmap response = some memmap ∧ pmmInit response m = .ok s.pmm
  step := PmmClient.Step

/-- The argument `a` lies in no reserved frame below `frame_count`, and if a
client holds the frame it lies in, `a` is that frame's base. -/
def Releasable (memmap : List BootMemmapEntry) (s : PmmClient) (a : Word) : Prop :=
  (a.toNat / 4096 < s.pmm.frameCount.toNat → Managed memmap s.pmm (a.toNat / 4096)) ∧
  ∀ b ∈ s.held, sameFrame b a → b = a

/-- The managed frames are the free ones and the held ones. -/
structure Owned (memmap : List BootMemmapEntry) (s : PmmClient) : Prop where
  ok : s.pmm.Ok
  usable : ∀ f, InUsable memmap f → f < s.pmm.frameCount.toNat
  managed : ∀ f, Managed memmap s.pmm f ↔
    f ∈ s.pmm.freeSet ∨ ∃ a ∈ s.held, a.toNat / 4096 = f
  aligned : ∀ a ∈ s.held, a.toNat % 4096 = 0
  notFree : ∀ a ∈ s.held, a.toNat / 4096 ∉ s.pmm.freeSet
  nodup : s.held.Nodup

section Steps

variable {memmap : List BootMemmapEntry} {s s' : PmmClient}

theorem Managed.offBitmap {p : Pmm} {f : Nat} (h : Managed memmap p f) :
    (f + 1) * 4096 ≤ p.bitmap.toNat ∨ p.bitmapEnd ≤ f * 4096 := by
  have := h.2.2
  unfold Pmm.HoldsBitmap at this
  omega

theorem managed_congr {p p' : Pmm} (hbm : p'.bitmap = p.bitmap)
    (hfc : p'.frameCount = p.frameCount) (f : Nat) : Managed memmap p' f ↔ Managed memmap p f := by
  simp only [Managed, Pmm.HoldsBitmap, Pmm.bitmapEnd, hbm, hfc]

theorem InitOk.owned {p : Pmm} (h : InitOk memmap p) : Owned memmap ⟨p, []⟩ := by
  refine ⟨⟨Nat.le_of_lt h.frames, h.count, ?_, ?_⟩, h.usable, ?_, ?_, ?_, List.nodup_nil⟩
  · exact fun hzero => ((h.freeSet 0).mp hzero).1 rfl
  · exact fun f hf => ((h.freeSet f).mp hf).offBitmap
  · intro f
    simp [h.freeSet f]
  · simp
  · simp

/-- Allocating moves one frame from the free ones to the held ones. -/
theorem Owned.alloc {r : Word} (h : Owned memmap s)
    (hstep : s.Step (.alloc r) s') : Owned memmap s' := by
  obtain ⟨hcall, hheld⟩ := hstep
  rcases Pmm.pmmAllocFrame_cases h.ok with ⟨_, hnone⟩ | ⟨f, hphys, hok⟩
  · -- the call failed: nothing changed
    rw [hcall] at hnone
    obtain ⟨rfl, hp⟩ := Prod.mk.inj hnone
    rw [if_pos rfl] at hheld
    have : s' = s := by cases s; cases s'; simp_all
    rw [this]
    exact h
  rw [hcall] at hphys hok
  have hframes := h.ok.frames
  have hlt := Pmm.freeSet_lt hok.wasFree
  have hf0 : f ≠ 0 := fun hz => h.ok.nonzero (hz ▸ hok.wasFree)
  have hr : r.toNat = f * 4096 := by
    change r = _ at hphys
    rw [hphys, toNat_ofNat_of_lt (by omega)]
  have hrne : r ≠ 0 := by
    rintro rfl
    simp at hr
    omega
  rw [if_neg hrne] at hheld
  have hdiv : r.toNat / 4096 = f := by omega
  refine ⟨hok.ok, ?_, ?_, ?_, ?_, ?_⟩
  · rw [hok.frameCount]
    exact h.usable
  · intro g
    rw [managed_congr hok.bitmap hok.frameCount, h.managed, hok.freeSet, hheld]
    simp only [List.mem_cons, exists_eq_or_imp, hdiv, Finset.mem_erase]
    constructor
    · rintro (hg | hg)
      · by_cases hgf : g = f
        · exact .inr (.inl hgf.symm)
        · exact .inl ⟨hgf, hg⟩
      · exact .inr (.inr hg)
    · rintro (⟨_, hg⟩ | rfl | hg)
      · exact .inl hg
      · exact .inl hok.wasFree
      · exact .inr hg
  · rw [hheld]
    intro a ha
    rcases List.mem_cons.mp ha with rfl | ha
    · omega
    · exact h.aligned a ha
  · rw [hheld, hok.freeSet]
    intro a ha
    rcases List.mem_cons.mp ha with rfl | ha
    · simp [hdiv]
    · exact fun hmem => h.notFree a ha (Finset.mem_of_mem_erase hmem)
  · rw [hheld, List.nodup_cons]
    exact ⟨fun hmem => h.notFree r hmem (hdiv ▸ hok.wasFree), h.nodup⟩

/-- Freeing a releasable address moves its frame back. -/
theorem Owned.free {a : Word} (h : Owned memmap s) (hrel : Releasable memmap s a)
    (hstep : s.Step (.free a) s') : Owned memmap s' := by
  obtain ⟨hcall, hheld⟩ := hstep
  have hok := Pmm.pmmFreeFrame_ok hcall
  have hman := hrel.1 hok.wasUsed.1
  refine ⟨h.ok.free hok hman.1 hman.offBitmap, ?_, ?_, ?_, ?_, ?_⟩
  · rw [hok.frameCount]
    exact h.usable
  · intro g
    rw [managed_congr hok.bitmap hok.frameCount, hok.freeSet, hheld, Finset.mem_insert]
    simp only [List.mem_filter, decide_not, Bool.not_eq_eq_eq_not, Bool.not_true,
      decide_eq_false_iff_not]
    by_cases hg : g = a.toNat / 4096
    · simp only [hg, true_or, iff_true]
      exact hman
    · rw [h.managed]
      simp only [hg, false_or]
      refine or_congr_right ⟨?_, ?_⟩
      · rintro ⟨b, hb, rfl⟩
        exact ⟨b, ⟨hb, hg⟩, rfl⟩
      · rintro ⟨b, ⟨hb, _⟩, rfl⟩
        exact ⟨b, hb, rfl⟩
  · rw [hheld]
    exact fun b hb => h.aligned b (List.mem_of_mem_filter hb)
  · rw [hheld, hok.freeSet]
    intro b hb hmem
    obtain ⟨hb, hne⟩ := List.mem_filter.mp hb
    rcases Finset.mem_insert.mp hmem with heq | hmem
    · simp [heq] at hne
    · exact h.notFree b hb hmem
  · rw [hheld]
    exact h.nodup.filter _

/-- A client's write into a frame it holds does not reach the bitmap. -/
theorem Owned.write {x : Nat} {b : Byte} (h : Owned memmap s)
    (hstep : s.Step (.write x b) s') : Owned memmap s' := by
  obtain ⟨⟨a, ha, hlo, hhi⟩, hpmm, hheld⟩ := hstep
  have halign := h.aligned a ha
  have hoff := ((h.managed _).mpr (.inr ⟨a, ha, rfl⟩)).offBitmap
  have hbm : s'.pmm.bitmap = s.pmm.bitmap := by rw [hpmm]; rfl
  have hfc : s'.pmm.frameCount = s.pmm.frameCount := by rw [hpmm]; rfl
  have hff : s'.pmm.freeFrames = s.pmm.freeFrames := by rw [hpmm]; rfl
  have hmem : ∀ y, s.pmm.bitmap.toNat ≤ y → y < s.pmm.bitmapEnd →
      s'.pmm.mem y = s.pmm.mem y := by
    intro y hy hy'
    rw [hpmm]
    exact store8_other _ _ (by omega)
  have hset := Pmm.freeSet_congr hbm hfc hmem
  refine ⟨h.ok.congr hbm hfc hff hmem, ?_, ?_, ?_, ?_, ?_⟩
  · rw [hfc]
    exact h.usable
  · intro g
    rw [managed_congr hbm hfc, h.managed, hset, hheld]
  · rw [hheld]
    exact h.aligned
  · rw [hheld, hset]
    exact h.notFree
  · rw [hheld]
    exact h.nodup

end Steps

end QuinKernel
