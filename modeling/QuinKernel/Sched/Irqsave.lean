import QuinKernel.Sched.Spinlock

/-!
# The irqsave sections

An irqsave section lasts from the `cli` of `spinlock_acquire_irqsave` to the
`popfq` of `spinlock_release_irqrestore`; `Code.saved` lists the flags of the
sections an activation is in, the innermost first. `Core.Nested` asks that each
release is of the innermost section and gives back its flags. `Code.Masks` is
what then holds of an activation: `IF` is clear inside a section, so only the
outermost can have saved it set, and each saved what it was called with.

A handler runs only over activations that had `IF` set, which are in no section
at all. So a lock that only the irqsave routines take is never held by
interrupted code, on any CPU.
-/

namespace QuinKernel

open Machine

section Discipline

variable {C L : Type} [DecidableEq L]

/-- A release is of the innermost irqsave section and restores the flags its
acquire returned; a lock taken by the plain routine is released by it. -/
def Core.Nested (k : Core L) : SpinAct L → Prop
  | .call (.release l) =>
      ∀ sec, k.running.held.find? (·.lock = l) = some sec → sec.saved = none
  | .call (.releaseIrqrestore l flags) =>
      ∀ sec, k.running.held.find? (·.lock = l) = some sec →
        k.running.held.find? (·.saved.isSome) = some sec ∧
          sec.saved.map SavedFlags.flags = some flags
  | _ => True

/-- A release restores flags that the acquire of its lock returned. -/
def Core.ownFlags (k : Core L) : SpinAct L → Bool
  | .call (.releaseIrqrestore l flags) =>
      (k.running.held.find? (·.lock = l)).all
        (fun sec => sec.saved.map SavedFlags.flags = some flags)
  | _ => true

/-- The users of `l` use the irqsave routines. -/
def UsesIrqsave (l : L) (a : SpinAct L) : Prop :=
  a ≠ .call (.acquire l) ∧ a ≠ .call (.release l)

instance (l : L) (a : SpinAct L) : Decidable (UsesIrqsave l a) :=
  inferInstanceAs (Decidable (_ ∧ _))

/-- No activation spins on a lock that an activation it interrupted holds. -/
def Core.NoSelfSpin (k : Core L) (l : L) : Prop :=
  k.codes.Pairwise (fun above below => ¬ (above.SpinsOn l ∧ l ∈ below.locks))

end Discipline

/-- Where an activation is in a routine, it has the flags it should. -/
def Code.PcOk {L : Type} (c : Code L) (rflags : Word) : Prop :=
  match c.pc with
  | .rest | .exchange _ _ | .read _ _ => True
  | .pushfq _ before => interruptFlag rflags = before
  | .pop _ saved | .cli _ saved =>
      interruptFlag rflags = saved.before ∧ interruptFlag saved.flags = saved.before
  | .store sec none => sec.saved = none
  | .store sec (some flags) =>
      c.held.find? (·.saved.isSome) = some sec ∧ sec.saved.map SavedFlags.flags = some flags
  | .push sec flags | .popfq sec flags => sec.saved.map SavedFlags.flags = some flags

/-- An activation that runs, or will run, with `rflags`. -/
structure Code.Masks {L : Type} (c : Code L) (rflags : Word) : Prop where
  inner : c.saved.Pairwise (fun f _ => interruptFlag f.flags = false)
  kept : ∀ f ∈ c.saved, interruptFlag f.flags = f.before
  masked : c.saved ≠ [] → interruptFlag rflags = false
  pc : c.PcOk rflags

/-- The running activation, and those that were interrupted, which had `IF` set. -/
structure Core.Masks {L : Type} (k : Core L) : Prop where
  running : k.running.Masks k.rflags
  interrupted : ∀ f ∈ k.interrupted, f.1.Masks f.2 ∧ interruptFlag f.2 = true

/-! ## The sections of an activation -/

section Sections

variable {L : Type} [DecidableEq L] {sec : Section L}

/-- Releasing a plain lock leaves the irqsave sections. -/
theorem filterMap_erase_plain (hplain : sec.saved = none) (held : List (Section L)) :
    (held.erase sec).filterMap Section.saved = held.filterMap Section.saved := by
  induction held with
  | nil => rfl
  | cons s held ih =>
      by_cases hs : s = sec
      · subst hs
        rw [List.erase_cons_head, List.filterMap_cons_none hplain]
      · rw [List.erase_cons_tail (by simpa using hs), List.filterMap_cons, List.filterMap_cons, ih]

/-- Releasing the innermost irqsave section leaves the others. -/
theorem filterMap_erase_innermost {held : List (Section L)}
    (hfind : held.find? (·.saved.isSome) = some sec) :
    held.filterMap Section.saved =
      sec.saved.toList ++ (held.erase sec).filterMap Section.saved := by
  induction held with
  | nil => cases hfind
  | cons s held ih =>
      cases hs : s.saved with
      | some saved =>
          rw [List.find?_cons_of_pos (by simp [hs])] at hfind
          obtain rfl := Option.some.inj hfind
          rw [List.erase_cons_head, List.filterMap_cons_some hs, hs]
          rfl
      | none =>
          rw [List.find?_cons_of_neg (by simp [hs])] at hfind
          have hne : s ≠ sec := by
            rintro rfl
            have hsome := List.find?_some hfind
            rw [hs] at hsome
            cases hsome
          rw [List.erase_cons_tail (by simpa using hne), List.filterMap_cons_none hs,
            List.filterMap_cons_none hs, ih hfind]

end Sections

/-! ## One step of a CPU -/

section Steps

variable {L : Type} {locked locked' : L → BitVec 32} {k k' : Core L}

/-- An instruction that leaves the sections, `RFLAGS` and the rest of the stack. -/
theorem Core.Masks.goto (h : k.Masks) {c : Code L} (hsaved : c.saved = k.running.saved)
    (hpc : c.PcOk k.rflags) : ({ k with running := c } : Core L).Masks :=
  ⟨⟨hsaved ▸ h.running.inner, hsaved ▸ h.running.kept, hsaved ▸ h.running.masked, hpc⟩,
    h.interrupted⟩

/-- Going on at `pc` keeps the sections if `pc` has the same one pending. -/
theorem Core.goto_saved {pc : SpinPc L}
    (hpending : (⟨pc, k.running.held⟩ : Code L).pending = k.running.pending) :
    (k.goto pc).running.saved = k.running.saved := by
  rw [Code.saved, Code.saved]
  exact congrArg (·.toList ++ _) hpending

/-- The sections an instruction leaves the running activation in: `cli` enters
one, `popfq` leaves the innermost with the flags it saved. -/
inductive SectionEffect (k k' : Core L) : Prop
  | same : k'.running.saved = k.running.saved → SectionEffect k k'
  | enter (saved : SavedFlags) : k'.running.saved = saved :: k.running.saved → SectionEffect k k'
  | leave (sec : Section L) (saved : SavedFlags) : k.running.pc = .popfq sec saved.flags →
      k.running.saved = saved :: k'.running.saved → k'.rflags = saved.flags → SectionEffect k k'

variable [DecidableEq L]

/-- **Instructions.** -/
theorem Core.Executed.masks (h : k.Executed locked locked' k') (hk : k.Masks) :
    k'.Masks ∧ SectionEffect k k' := by
  obtain ⟨hinner, hkept, hmasked, hpcok⟩ := hk.running
  cases h with
  | @pushfq l before pc =>
      simp only [Code.PcOk, pc] at hpcok
      have hsaved : (k.goto (.pop l ⟨k.rflags, before⟩)).running.saved = k.running.saved :=
        Core.goto_saved (by simp only [Code.pending, pc])
      exact ⟨hk.goto hsaved ⟨hpcok, hpcok⟩, .same hsaved⟩
  | @pop l saved pc =>
      simp only [Code.PcOk, pc] at hpcok
      have hsaved : (k.goto (.cli l saved)).running.saved = k.running.saved :=
        Core.goto_saved (by simp only [Code.pending, pc])
      exact ⟨hk.goto hsaved hpcok, .same hsaved⟩
  -- `cli` opens a section: what it saves is what interrupts were before
  | @cli l saved pc =>
      simp only [Code.PcOk, pc] at hpcok
      have hsaved : (k.goto (.exchange l (some saved))).running.saved =
          saved :: k.running.saved := by
        simp only [Code.saved, Code.pending, Core.goto, pc]
        rfl
      refine ⟨⟨⟨?_, ?_, fun _ => interruptFlag_cli _, trivial⟩, hk.interrupted⟩,
        .enter saved hsaved⟩
      · rw [hsaved]
        refine List.pairwise_cons.mpr ⟨fun f hf => ?_, hinner⟩
        rw [hpcok.2, ← hpcok.1]
        exact hmasked (List.ne_nil_of_mem hf)
      · rw [hsaved]
        exact List.forall_mem_cons.mpr ⟨hpcok.2, hkept⟩
  | @taken l saved pc free =>
      have hsaved : (k.take ⟨l, saved⟩).running.saved = k.running.saved := by
        simp only [Code.saved, Code.pending, Core.take, pc]
        cases saved <;> rfl
      exact ⟨hk.goto hsaved trivial, .same hsaved⟩
  | @contended l saved pc held =>
      have hsaved : (k.goto (.read l saved)).running.saved = k.running.saved :=
        Core.goto_saved (by simp only [Code.pending, pc])
      exact ⟨hk.goto hsaved trivial, .same hsaved⟩
  | spin => exact ⟨hk, .same rfl⟩
  | @retry l saved pc =>
      have hsaved : (k.goto (.exchange l saved)).running.saved = k.running.saved :=
        Core.goto_saved (by simp only [Code.pending, pc])
      exact ⟨hk.goto hsaved trivial, .same hsaved⟩
  | @store sec pc =>
      simp only [Code.PcOk, pc] at hpcok
      have hsaved : (k.drop sec .rest).running.saved = k.running.saved := by
        simp only [Code.saved, Code.pending, Core.drop, pc, filterMap_erase_plain hpcok]
      exact ⟨hk.goto hsaved trivial, .same hsaved⟩
  | @storeIrq sec flags pc =>
      simp only [Code.PcOk, pc] at hpcok
      have hsaved : (k.drop sec (.push sec flags)).running.saved = k.running.saved := by
        simp only [Code.saved, Code.pending, Core.drop, pc, filterMap_erase_innermost hpcok.1]
        rfl
      exact ⟨hk.goto hsaved hpcok.2, .same hsaved⟩
  | @push sec flags pc =>
      simp only [Code.PcOk, pc] at hpcok
      have hsaved : (k.goto (.popfq sec flags)).running.saved = k.running.saved :=
        Core.goto_saved (by simp only [Code.pending, pc])
      exact ⟨hk.goto hsaved hpcok, .same hsaved⟩
  -- `popfq` ends the innermost section, so the flags it restores are that one's
  | @popfq sec flags pc =>
      simp only [Code.PcOk, pc] at hpcok
      obtain ⟨saved, hsec, rfl⟩ := Option.map_eq_some_iff.mp hpcok
      have hsaved : k.running.saved = saved :: (k.goto .rest).running.saved := by
        simp only [Code.saved, Code.pending, Core.goto, pc, hsec]
        rfl
      rw [hsaved] at hinner hkept
      obtain ⟨hfirst, hinner⟩ := List.pairwise_cons.mp hinner
      refine ⟨⟨⟨hinner, (List.forall_mem_cons.mp hkept).2, fun hne => ?_, trivial⟩,
        hk.interrupted⟩, .leave sec saved pc hsaved rfl⟩
      obtain ⟨f, hf⟩ := List.exists_mem_of_ne_nil _ hne
      exact hfirst f hf

/-- A call enters its routine and no section. -/
theorem Core.Masks.call (h : k.Masks) {r : Routine L} (hrest : k.running.pc = .rest)
    (hnested : k.Nested (.call r)) (hcall : k.call r = some k') :
    k'.Masks ∧ k'.running.saved = k.running.saved := by
  have hsaved : ∀ pc : SpinPc L, (⟨pc, k.running.held⟩ : Code L).pending = none →
      (k.goto pc).running.saved = k.running.saved := by
    intro pc hpending
    refine Core.goto_saved (hpending.trans ?_)
    simp only [Code.pending, hrest]
  cases r with
  | acquire l =>
      obtain rfl := Option.some.inj hcall
      exact ⟨h.goto (hsaved _ rfl) trivial, hsaved _ rfl⟩
  | acquireIrqsave l =>
      obtain rfl := Option.some.inj hcall
      exact ⟨h.goto (hsaved _ rfl) rfl, hsaved _ rfl⟩
  | release l =>
      obtain ⟨sec, hfind, rfl⟩ := Option.map_eq_some_iff.mp hcall
      exact ⟨h.goto (hsaved _ rfl) (hnested sec hfind), hsaved _ rfl⟩
  | releaseIrqrestore l flags =>
      obtain ⟨sec, hfind, rfl⟩ := Option.map_eq_some_iff.mp hcall
      exact ⟨h.goto (hsaved _ rfl) (hnested sec hfind), hsaved _ rfl⟩

/-- **One step of a CPU.** If the running activation is in a section, it stays in
one, or leaves the outermost with the `IF` it was called with. -/
theorem Core.Moved.masks {a : SpinAct L} (h : k.Moved locked a locked' k') (hk : k.Masks)
    (hnested : k.Nested a) :
    k'.Masks ∧ (k.running.saved ≠ [] → k'.running.saved ≠ [] ∨
      ∃ sec saved, a = .exec ∧ k.running.pc = .popfq sec saved.flags ∧
        k.running.saved = [saved] ∧ interruptFlag k'.rflags = saved.before) := by
  cases h with
  | call rest enter =>
      obtain ⟨hmasks, hsaved⟩ := hk.call rest hnested enter
      exact ⟨hmasks, fun hne => .inl (hsaved ▸ hne)⟩
  | exec executed =>
      obtain ⟨hmasks, heffect⟩ := executed.masks hk
      refine ⟨hmasks, fun hne => ?_⟩
      cases heffect with
      | same hsaved => exact .inl (hsaved ▸ hne)
      | enter saved hsaved => exact .inl (hsaved ▸ List.cons_ne_nil _ _)
      | leave sec saved hpc hsaved hrflags =>
          by_cases hlast : k'.running.saved = []
          · rw [hlast] at hsaved
            refine .inr ⟨sec, saved, rfl, hpc, hsaved, ?_⟩
            rw [hrflags]
            exact hk.running.kept saved (hsaved ▸ List.mem_singleton_self saved)
          · exact .inl hlast
  | other rest keeps =>
      refine ⟨⟨⟨hk.running.inner, hk.running.kept, fun hne => ?_, ?_⟩, hk.interrupted⟩, .inl⟩
      · rw [keeps.resolve_left hne]
        exact hk.running.masked hne
      · simp only [Code.PcOk, rest]
  | interrupt enabled =>
      refine ⟨⟨⟨.nil, List.forall_mem_nil _, fun hne => absurd rfl hne, trivial⟩,
        List.forall_mem_cons.mpr ⟨⟨hk.running, enabled⟩, hk.interrupted⟩⟩, fun hne => ?_⟩
      rw [hk.running.masked hne] at enabled
      cases enabled
  | iretq frames rest released =>
      obtain ⟨hframe, hinterrupted⟩ := List.forall_mem_cons.mp (frames ▸ hk.interrupted)
      refine ⟨⟨hframe.1, hinterrupted⟩, fun hne => absurd ?_ hne⟩
      simp only [Code.saved, Code.pending, rest, released]
      rfl

/-- Not on the way to taking `l` by the plain routine. -/
def SpinPc.Irqsaves (l : L) : SpinPc L → Prop
  | .exchange l' none | .read l' none => l' ≠ l
  | _ => True

/-- An activation that takes `l` by the irqsave routine only. -/
structure Code.Irqsaves (l : L) (c : Code L) : Prop where
  held : ∀ sec ∈ c.held, sec.lock = l → sec.saved ≠ none
  pc : c.pc.Irqsaves l

theorem Core.Executed.irqsaves {l : L} (h : k.Executed locked locked' k')
    (hk : k.running.Irqsaves l) :
    k'.running.Irqsaves l ∧ k'.interrupted = k.interrupted := by
  obtain ⟨hheld, hpcok⟩ := hk
  cases h with
  | pushfq | pop | cli | push | popfq => exact ⟨⟨hheld, trivial⟩, rfl⟩
  | taken pc free =>
      rw [pc] at hpcok
      refine ⟨⟨List.forall_mem_cons.mpr ⟨?_, hheld⟩, trivial⟩, rfl⟩
      rintro hl rfl
      exact hpcok hl
  | @contended l' saved pc held =>
      rw [pc] at hpcok
      refine ⟨⟨hheld, ?_⟩, rfl⟩
      cases saved <;> exact hpcok
  | spin => exact ⟨⟨hheld, hpcok⟩, rfl⟩
  | @retry l' saved pc =>
      rw [pc] at hpcok
      refine ⟨⟨hheld, ?_⟩, rfl⟩
      cases saved <;> exact hpcok
  | store | storeIrq =>
      exact ⟨⟨fun sec hsec => hheld sec (List.mem_of_mem_erase hsec), trivial⟩, rfl⟩

/-- **One step of a CPU** where the users of `l` use the irqsave routines. -/
theorem Core.Moved.irqsaves {l : L} {a : SpinAct L} (h : k.Moved locked a locked' k')
    (hk : ∀ c ∈ k.codes, c.Irqsaves l) (huses : UsesIrqsave l a) :
    ∀ c ∈ k'.codes, c.Irqsaves l := by
  obtain ⟨hrunning, hbelow⟩ := List.forall_mem_cons.mp hk
  cases h with
  | @call r k' rest enter =>
      have hgoto : ∀ pc : SpinPc L, pc.Irqsaves l → ∀ c ∈ (k.goto pc).codes, c.Irqsaves l :=
        fun pc hpc => List.forall_mem_cons.mpr ⟨⟨hrunning.held, hpc⟩, hbelow⟩
      cases r with
      | acquire l' =>
          obtain rfl := Option.some.inj enter
          refine hgoto _ fun hl => huses.1 ?_
          rw [hl]
      | acquireIrqsave l' =>
          obtain rfl := Option.some.inj enter
          exact hgoto _ trivial
      | release l' | releaseIrqrestore l' flags =>
          obtain ⟨sec, -, rfl⟩ := Option.map_eq_some_iff.mp enter
          exact hgoto _ trivial
  | exec executed =>
      obtain ⟨hrunning', hsame⟩ := executed.irqsaves hrunning
      refine List.forall_mem_cons.mpr ⟨hrunning', ?_⟩
      rwa [hsame]
  | other => exact hk
  | interrupt => exact List.forall_mem_cons.mpr ⟨⟨List.forall_mem_nil _, trivial⟩, hk⟩
  | iretq frames rest released => rwa [frames] at hbelow

end Steps

/-! ## Any number of CPUs -/

section Theorem

variable {C L : Type}

theorem Core.masks_init (rflags : Word) : (⟨rflags, ⟨.rest, []⟩, []⟩ : Core L).Masks :=
  ⟨⟨.nil, List.forall_mem_nil _, fun hne => absurd rfl hne, trivial⟩, List.forall_mem_nil _⟩

/-- Interrupted code holds no lock that only the irqsave routines take. -/
theorem Core.noSelfSpin {k : Core L} {l : L} (hmasks : k.Masks)
    (huses : ∀ c ∈ k.codes, c.Irqsaves l) : k.NoSelfSpin l := by
  have hfree : ∀ c ∈ k.interrupted.map Prod.fst, l ∉ c.locks := by
    intro c hc hheld
    obtain ⟨f, hf, rfl⟩ := List.mem_map.mp hc
    obtain ⟨hframe, hif⟩ := hmasks.interrupted f hf
    obtain ⟨sec, hsec, hlock⟩ := List.mem_map.mp hheld
    obtain ⟨saved, hsaved⟩ :=
      Option.ne_none_iff_exists'.mp ((huses f.1 (List.mem_cons_of_mem _ hc)).held sec hsec hlock)
    have hmem : saved ∈ f.1.saved :=
      List.mem_append_right _ (List.mem_filterMap.mpr ⟨sec, hsec, hsaved⟩)
    rw [hframe.masked (List.ne_nil_of_mem hmem)] at hif
    cases hif
  refine List.pairwise_cons.mpr ⟨fun c hc hspin => hfree c hc hspin.2, ?_⟩
  exact List.pairwise_of_forall_mem_list fun _ _ c hc hspin => hfree c hc hspin.2

variable [DecidableEq C] [DecidableEq L] {s s' : Smp C L}

/-- What each CPU's steps keep holds of every CPU. -/
theorem core_invariant {P : Core L → Prop} {D : Core L → SpinAct L → Prop}
    (hinit : ∀ rflags, P ⟨rflags, ⟨.rest, []⟩, []⟩)
    (hstep : ∀ {locked locked' k k' a}, P k → D k a → k.after locked a = some (locked', k') → P k') :
    ((spinlockSystem C L).restrict (fun s e => D (s.core e.1) e.2)).Invariant
      (fun s => ∀ p, P (s.core p)) := by
  refine System.Inductive.invariant ⟨?_, ?_⟩
  · rintro s ⟨-, hcore⟩ p
    obtain ⟨hrunning, hinterrupted⟩ := hcore p
    have hk := hinit (s.core p).rflags
    rwa [← hrunning, ← hinterrupted] at hk
  · rintro s ⟨p, a⟩ s' hs ⟨hmeets, hafter⟩ q
    obtain ⟨⟨locked', k'⟩, hcore, rfl⟩ := Option.map_eq_some_iff.mp hafter
    show P (Function.update s.core p k' q)
    by_cases hq : q = p
    · subst hq
      rw [Function.update_self]
      exact hstep (hs q) hmeets hcore
    · rw [Function.update_of_ne hq]
      exact hs q

variable (C) in
/-- Where the sections nest, every activation has its flags. -/
theorem masks_invariant :
    ((spinlockSystem C L).restrict (fun s e => (s.core e.1).Nested e.2)).Invariant
      (fun s => ∀ p, (s.core p).Masks) :=
  core_invariant Core.masks_init
    (fun h hnested hafter => ((Core.moved_of_after hafter).masks h hnested).1)

variable (C) in
/-- **No self-deadlock.** Where the sections nest and the users of `l` use the
irqsave routines, no activation spins on `l` while one it interrupted holds it. -/
theorem noSelfSpin_invariant (l : L) :
    ((spinlockSystem C L).restrict
      (fun s e => (s.core e.1).Nested e.2 ∧ UsesIrqsave l e.2)).Invariant
      (fun s => ∀ p, (s.core p).NoSelfSpin l) := by
  intro s hs p
  have hboth := core_invariant (C := C) (L := L)
    (P := fun k => k.Masks ∧ ∀ c ∈ k.codes, c.Irqsaves l)
    (D := fun k a => k.Nested a ∧ UsesIrqsave l a)
    (fun rflags => ⟨Core.masks_init rflags,
      List.forall_mem_singleton.mpr ⟨List.forall_mem_nil _, trivial⟩⟩)
    (fun h hmeets hafter => ⟨((Core.moved_of_after hafter).masks h.1 hmeets.1).1,
      (Core.moved_of_after hafter).irqsaves h.2 hmeets.2⟩) s hs p
  exact Core.noSelfSpin hboth.1 hboth.2

/-- **The spinlocks.** On any number of CPUs no two are between acquiring and
releasing one lock. Where the irqsave sections nest, no activation spins on a
lock that is only used by the irqsave routines and held by one it interrupted;
and `IF` stays clear in a section until the `popfq` of the outermost, which
leaves it as it was before the outermost acquire. -/
theorem spinlocks_correct :
    (∀ s, (spinlockSystem C L).Reachable s →
      (∀ p q l, l ∈ (s.core p).locks → l ∈ (s.core q).locks → p = q) ∧
        ∀ p, (s.core p).locks.Nodup) ∧
    (∀ l s, ((spinlockSystem C L).restrict
        (fun s e => (s.core e.1).Nested e.2 ∧ UsesIrqsave l e.2)).Reachable s →
      ∀ p, (s.core p).NoSelfSpin l) ∧
    ∀ s e s', ((spinlockSystem C L).restrict (fun s e => (s.core e.1).Nested e.2)).Reachable s →
      (s.core e.1).Nested e.2 → s.after e = some s' →
      ∀ p, (s.core p).running.saved ≠ [] → interruptFlag (s.core p).rflags = false ∧
        ((s'.core p).running.saved ≠ [] ∧ interruptFlag (s'.core p).rflags = false ∨
          ∃ sec saved, e = (p, .exec) ∧ (s.core p).running.pc = .popfq sec saved.flags ∧
            (s.core p).running.saved = [saved] ∧
            interruptFlag (s'.core p).rflags = saved.before) := by
  refine ⟨fun s hs => mutuallyExclusive hs, noSelfSpin_invariant C, ?_⟩
  rintro s ⟨q, a⟩ s' hs hnested hafter p hne
  have hmasks := masks_invariant C s hs
  refine ⟨(hmasks p).running.masked hne, ?_⟩
  obtain ⟨⟨locked', k'⟩, hcore, rfl⟩ := Option.map_eq_some_iff.mp hafter
  dsimp only
  by_cases hp : p = q
  · subst hp
    obtain ⟨hmasks', hleft⟩ := (Core.moved_of_after hcore).masks (hmasks p) hnested
    rw [Function.update_self]
    rcases hleft hne with hin | ⟨sec, saved, rfl, hpc, hlast, hif⟩
    · exact .inl ⟨hin, hmasks'.running.masked hin⟩
    · exact .inr ⟨sec, saved, rfl, hpc, hlast, hif⟩
  · rw [Function.update_of_ne hp]
    exact .inl ⟨hne, (hmasks p).running.masked hne⟩

end Theorem

/-- **Crossed sections.** Every lock is used by the irqsave routines alone, and
each release restores the flags of its own acquire; but the section on one lock
ends inside that on another, and sets `IF` while the other lock is held. A
handler that takes it then spins on a lock of the code it interrupted. -/
theorem irqsave_crossed_selfSpins :
    ∃ s, ((spinlockSystem Unit Bool).restrict (fun s e =>
        (s.core e.1).ownFlags e.2 = true ∧ ∀ l, UsesIrqsave l e.2)).Reachable s ∧
      ¬ (s.core ()).NoSelfSpin true := by
  let s₀ : Smp Unit Bool := ⟨fun _ => 0, fun _ => ⟨0x202, ⟨.rest, []⟩, []⟩⟩
  let es : List (SpinAct Bool) := List.flatten [
    .call (.acquireIrqsave false) :: List.replicate 4 .exec,
    .call (.acquireIrqsave true) :: List.replicate 4 .exec,
    .call (.releaseIrqrestore false 0x202) :: List.replicate 3 .exec,
    .interrupt :: .call (.acquireIrqsave true) :: List.replicate 4 .exec]
  have hrun : ((System.runAll (System.onlyIf (fun s e =>
      (s.core e.1).ownFlags e.2 = true ∧ ∀ l, UsesIrqsave l e.2) Smp.after) s₀
      (es.map (fun a => ((), a)))).map
      (fun s => ((s.core ()).running.pc, (s.core ()).interrupted.map (·.1.held)))) =
      some (.read true (some ⟨0x2, false⟩), [[⟨true, some ⟨0x2, false⟩⟩]]) := by
    decide +kernel
  obtain ⟨s, hs, hview⟩ := Option.map_eq_some_iff.mp hrun
  obtain ⟨hpc, hheld⟩ := Prod.mk.inj hview
  refine ⟨s, (System.run_of_onlyIf (fun _ _ _ h => h) hs).reachable
    (.init ⟨fun _ => rfl, fun _ => ⟨rfl, rfl⟩⟩), fun hnone => ?_⟩
  obtain ⟨frame, below, hframes, hframe, -⟩ := List.map_eq_cons_iff.mp hheld
  have hlock : true ∈ frame.1.locks := by
    rw [Code.locks, hframe]
    decide
  refine (List.pairwise_cons.mp hnone).1 frame.1 ?_ ⟨⟨_, .inr hpc⟩, hlock⟩
  rw [hframes]
  exact List.mem_cons_self

end QuinKernel
