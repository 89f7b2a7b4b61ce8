import QuinKernel.Machine.Memory
import QuinKernel.Machine.Simulation

/-!
# The I/O APIC (`ioapic.c`)

The I/O APIC has one 64-bit entry for each interrupt line, in two registers
behind an index register of eight bits and a window. Programming an entry takes
four stores, and a line may be raised between any two of them: the message that
goes out is what the entry says at that moment.

`ioapic_set_irq` stores the destination first and the vector with the mask last.
On a masked entry, and on one that keeps its destination, the first half changes
no message, so the call takes effect at once, with its last store
(`IoApic.shows_call`). `ioapic_init` leaves every entry masked.

The read-only bits of an entry, its delivery status, are part of the device, not
of what it routes.
-/

namespace QuinKernel

open Machine

/-! ## The device -/

/-- `IOAPIC_REG_SELECT` and `IOAPIC_REG_WINDOW`. -/
def ioapicRegSelect : Nat := 0x00
def ioapicRegWindow : Nat := 0x10

/-- `IOAPIC_REG_VERSION`. -/
def ioapicRegVersion : BitVec 32 := 0x01

/-- `IOAPIC_REG_REDIRECTION(irq)`. -/
def ioapicRegRedirection (irq : BitVec 32) : BitVec 32 := 0x10 + 2 * irq

/-- `IOAPIC_REDIR_MASKED`. -/
def ioapicRedirMasked : BitVec 32 := 1 <<< 16

/-- Bits 12 and 14 of an entry: delivery status and remote IRR. -/
def entryReadOnly : BitVec 32 := 0x5000

/-- The last entry a version register admits to. -/
def versionMaxEntry (version : BitVec 32) : BitVec 32 := (version >>> 16) &&& 0xff

/-- The device. The index register reaches 120 entries, so there are no more. -/
structure IoApic where
  version : BitVec 32
  fits : (versionMaxEntry version).toNat < 120
  select : Byte
  low : Nat → BitVec 32
  high : Nat → BitVec 32

/-- What goes out to the LAPICs when a line is raised: the vector, the delivery mode
with the other writable bits beside it, and the destination. -/
structure IoApicMessage where
  vector : Byte
  mode : Byte
  dest : Byte
  deriving DecidableEq

/-- What an entry sends; nothing if it is masked. -/
def entryRoute (low high : BitVec 32) : Option IoApicMessage :=
  if low.getLsbD 16 then none
  else some ⟨low.setWidth 8, ((low >>> 8) &&& 0xaf).setWidth 8, (high >>> 24).setWidth 8⟩

namespace IoApic

/-- The last entry. -/
def maxEntry (d : IoApic) : Nat := (versionMaxEntry d.version).toNat

/-- What a line sends. -/
def route (d : IoApic) (line : Nat) : Option IoApicMessage :=
  if line ≤ d.maxEntry then entryRoute (d.low line) (d.high line) else none

/-- A store to the selected register. Those below the entries route nothing, and
there is nothing behind the last entry. -/
def writeRegister (d : IoApic) (value : BitVec 32) : IoApic :=
  let line := (d.select.toNat - 0x10) / 2
  let low := (value &&& ~~~entryReadOnly) ||| (d.low line &&& entryReadOnly)
  if d.select.toNat < 0x10 ∨ d.maxEntry < line then d
  else if d.select.toNat % 2 = 0 then { d with low := Function.update d.low line low }
  else { d with high := Function.update d.high line value }

/-- `ioapic_base[offset / 4] = value`. -/
def store (d : IoApic) (offset : Nat) (value : BitVec 32) : IoApic :=
  if offset = ioapicRegSelect then { d with select := value.setWidth 8 }
  else if offset = ioapicRegWindow then d.writeRegister value
  else d

/-- `ioapic_base[IOAPIC_REG_WINDOW / 4]`. -/
def loadWindow (d : IoApic) : BitVec 32 :=
  let line := (d.select.toNat - 0x10) / 2
  if d.select = ioapicRegVersion.setWidth 8 then d.version
  else if d.select.toNat < 0x10 ∨ d.maxEntry < line then 0
  else if d.select.toNat % 2 = 0 then d.low line
  else d.high line

/-- Stores, in order. -/
def storeAll (d : IoApic) (stores : List (Nat × BitVec 32)) : IoApic :=
  stores.foldl (fun d s => d.store s.1 s.2) d

end IoApic

/-! ## The driver -/

/-- The stores of `ioapic_write`. -/
def ioapicWrite (reg value : BitVec 32) : List (Nat × BitVec 32) :=
  [(ioapicRegSelect, reg), (ioapicRegWindow, value)]

/-- `ioapic_read`. -/
def ioapicRead (d : IoApic) (reg : BitVec 32) : BitVec 32 × IoApic :=
  let d := d.store ioapicRegSelect reg
  (d.loadWindow, d)

/-- The stores of the loop of `ioapic_init`, up to and without entry `n`. -/
def ioapicInitStores (n : Nat) : List (Nat × BitVec 32) :=
  (List.range n).flatMap (fun irq =>
    ioapicWrite (ioapicRegRedirection (BitVec.ofNat 32 irq)) ioapicRedirMasked ++
      ioapicWrite (ioapicRegRedirection (BitVec.ofNat 32 irq) + 1) 0)

/-- `ioapic_init`, on the device its address leads to. -/
def ioapicInit (d : IoApic) : IoApic :=
  let (version, d) := ioapicRead d ioapicRegVersion
  d.storeAll (ioapicInitStores ((versionMaxEntry version).toNat + 1))

/-- The arguments of `ioapic_set_irq`. -/
structure SetIrq where
  irq : Byte
  vector : Byte
  destApicId : Byte
  masked : Bool
  deriving DecidableEq

namespace SetIrq

/-- `low`. -/
def low (c : SetIrq) : BitVec 32 :=
  if c.masked then c.vector.setWidth 32 ||| ioapicRedirMasked else c.vector.setWidth 32

/-- `high`. -/
def high (c : SetIrq) : BitVec 32 := c.destApicId.setWidth 32 <<< 24

end SetIrq

/-- The stores of `ioapic_set_irq`. -/
def ioapicSetIrq (c : SetIrq) : List (Nat × BitVec 32) :=
  let reg := ioapicRegRedirection (c.irq.setWidth 32)
  ioapicWrite (reg + 1) c.high ++ ioapicWrite reg c.low

/-! ## Entries and registers -/

/-- The writable bits are what an entry routes by. -/
theorem entryRoute_keepReadOnly (value old high : BitVec 32) :
    entryRoute ((value &&& ~~~entryReadOnly) ||| (old &&& entryReadOnly)) high =
      entryRoute value high := by
  set low := (value &&& ~~~entryReadOnly) ||| (old &&& entryReadOnly) with hlow
  have hbit : ∀ k, k < 32 → entryReadOnly.getLsbD k = false → low.getLsbD k = value.getLsbD k := by
    intro k hk hwritable
    rw [hlow, BitVec.getLsbD_or, BitVec.getLsbD_and, BitVec.getLsbD_and, BitVec.getLsbD_not,
      hwritable]
    simp [hk]
  have hvector : ∀ k, k < 8 → entryReadOnly.getLsbD k = false := by decide
  have hmode : ∀ k, k < 8 → (0xaf : BitVec 32).getLsbD k = true →
      entryReadOnly.getLsbD (8 + k) = false := by decide
  unfold entryRoute
  rw [hbit 16 (by decide) (by decide)]
  congr 3
  · ext k hk
    simpa [hk] using hbit k (by omega) (hvector k hk)
  · ext k hk
    simp only [BitVec.getElem_setWidth, BitVec.getLsbD_and, BitVec.getLsbD_ushiftRight]
    cases hmasked : (0xaf : BitVec 32).getLsbD k
    · rw [Bool.and_false, Bool.and_false]
    · rw [hbit (8 + k) (by omega) (hmode k hk hmasked)]

/-- What an entry sends, with another destination. -/
def IoApicMessage.to (dest : Byte) (m : IoApicMessage) : IoApicMessage := { m with dest := dest }

theorem entryRoute_high (low high high' : BitVec 32) :
    entryRoute low high' = (entryRoute low high).map (.to ((high' >>> 24).setWidth 8)) := by
  unfold entryRoute
  split
  · rfl
  · rfl

/-- The line whose registers the index of `irq` reaches: the index register has eight
bits. -/
def ioapicLine (irq : Byte) : Nat := irq.toNat % 128

namespace SetIrq

/-- The line a call programs. -/
def line (c : SetIrq) : Nat := ioapicLine c.irq

/-- What the call is for. -/
def message (c : SetIrq) : Option IoApicMessage :=
  if c.masked then none else some ⟨c.vector, 0, c.destApicId⟩

variable (c : SetIrq)

theorem dest_high : ((c.high >>> 24).setWidth 8 : Byte) = c.destApicId := by
  apply BitVec.eq_of_toNat_eq
  have hlt := c.destApicId.isLt
  unfold SetIrq.high
  simp only [BitVec.toNat_setWidth, BitVec.toNat_ushiftRight, BitVec.toNat_shiftLeft,
    Nat.shiftRight_eq_div_pow, Nat.shiftLeft_eq]
  omega

theorem route_low : entryRoute c.low c.high = c.message := by
  have hmode : ((c.vector.setWidth 32 : BitVec 32) >>> 8).setWidth 8 = (0 : Byte) := by
    ext k hk
    simp
  unfold entryRoute SetIrq.message
  rw [c.dest_high]
  unfold SetIrq.low
  cases c.masked
  · simp [hmode]
  · simp [ioapicRedirMasked]

end SetIrq

/-! ## Registers -/

section Registers

variable {d : IoApic} (irq : Byte)

/-- The register of a line, and the one that holds the upper half of its entry. -/
theorem select_toNat (irq : Byte) :
    ((ioapicRegRedirection (irq.setWidth 32)).setWidth 8 : Byte).toNat =
        (16 + 2 * irq.toNat) % 256 ∧
      ((ioapicRegRedirection (irq.setWidth 32) + 1).setWidth 8 : Byte).toNat =
        (17 + 2 * irq.toNat) % 256 := by
  have hlt := irq.isLt
  have hsixteen : (0x10 : BitVec 32).toNat = 16 := rfl
  have htwo : (2 : BitVec 32).toNat = 2 := rfl
  have hone : (1 : BitVec 32).toNat = 1 := rfl
  unfold ioapicRegRedirection
  simp only [BitVec.toNat_setWidth, BitVec.toNat_add, BitVec.toNat_mul, hsixteen, htwo, hone]
  omega

theorem IoApic.route_of_le {l : Nat} (hl : l ≤ d.maxEntry) :
    d.route l = entryRoute (d.low l) (d.high l) := if_pos hl

theorem IoApic.route_of_lt {l : Nat} (hl : d.maxEntry < l) : d.route l = none :=
  if_neg (by omega)

theorem IoApic.route_congr {d' : IoApic} {l : Nat} (hversion : d'.version = d.version)
    (hlow : d'.low l = d.low l) (hhigh : d'.high l = d.high l) : d'.route l = d.route l := by
  unfold IoApic.route IoApic.maxEntry
  rw [hversion, hlow, hhigh]

/-- What a selected register is: half `b` of the line's entry, or none. -/
theorem IoApic.selected {b : Nat} (hb : b < 2)
    (hsel : d.select.toNat = (16 + b + 2 * irq.toNat) % 256) :
    (ioapicLine irq ≤ d.maxEntry →
      ¬(d.select.toNat < 0x10 ∨ d.maxEntry < ioapicLine irq) ∧
      (d.select.toNat - 0x10) / 2 = ioapicLine irq ∧ d.select.toNat % 2 = b) ∧
    (¬ioapicLine irq ≤ d.maxEntry →
      (d.select.toNat < 0x10 ∨ d.maxEntry < (d.select.toNat - 0x10) / 2)) := by
  have hlt := irq.isLt
  have hfits := d.fits
  unfold ioapicLine IoApic.maxEntry
  constructor
  · intro hin
    omega
  · intro hout
    omega

/-- A store to the upper half of an entry redirects what it sends. -/
theorem IoApic.route_writeHigh
    (hselect : d.select = (ioapicRegRedirection (irq.setWidth 32) + 1).setWidth 8)
    (value : BitVec 32) :
    (ioapicLine irq ≤ d.maxEntry → (d.writeRegister value).high (ioapicLine irq) = value) ∧
    (d.writeRegister value).route = Function.update d.route (ioapicLine irq)
      ((d.route (ioapicLine irq)).map (.to ((value >>> 24).setWidth 8))) := by
  obtain ⟨hin, hout⟩ := IoApic.selected (d := d) irq (b := 1) (by decide)
    (by rw [hselect]; exact (select_toNat irq).2)
  unfold IoApic.writeRegister
  dsimp only
  by_cases hline : ioapicLine irq ≤ d.maxEntry
  · obtain ⟨habove, hselected, hodd⟩ := hin hline
    rw [hselected, if_neg habove, if_neg (by omega)]
    refine ⟨fun _ => by simp, funext fun l => ?_⟩
    by_cases hl : l = ioapicLine irq
    · subst hl
      rw [Function.update_self, IoApic.route_of_le hline, IoApic.route_of_le (by exact hline),
        ← entryRoute_high]
      simp
    · rw [Function.update_of_ne hl]
      exact IoApic.route_congr rfl rfl (Function.update_of_ne hl _ _)
  · have hnone : d.route (ioapicLine irq) = none := if_neg hline
    rw [if_pos (hout hline)]
    refine ⟨fun h => absurd h hline, ?_⟩
    rw [hnone, Option.map_none, ← hnone, Function.update_eq_self]

/-- A store to the lower half of an entry. -/
theorem IoApic.route_writeLow
    (hselect : d.select = (ioapicRegRedirection (irq.setWidth 32)).setWidth 8)
    (value : BitVec 32) :
    (d.writeRegister value).route =
      if ioapicLine irq ≤ d.maxEntry then
        Function.update d.route (ioapicLine irq) (entryRoute value (d.high (ioapicLine irq)))
      else d.route := by
  obtain ⟨hin, hout⟩ := IoApic.selected (d := d) irq (b := 0) (by decide)
    (by rw [hselect]; exact (select_toNat irq).1)
  unfold IoApic.writeRegister
  dsimp only
  by_cases hline : ioapicLine irq ≤ d.maxEntry
  · obtain ⟨habove, hselected, heven⟩ := hin hline
    rw [hselected, if_neg habove, if_pos heven, if_pos hline]
    refine funext fun l => ?_
    by_cases hl : l = ioapicLine irq
    · subst hl
      rw [Function.update_self, IoApic.route_of_le (by exact hline)]
      simp only [Function.update_self]
      rw [entryRoute_keepReadOnly]
    · rw [Function.update_of_ne hl]
      exact IoApic.route_congr rfl (Function.update_of_ne hl _ _) rfl
  · rw [if_pos (hout hline), if_neg hline]

theorem IoApic.maxEntry_store (offset : Nat) (value : BitVec 32) :
    (d.store offset value).maxEntry = d.maxEntry := by
  unfold IoApic.store IoApic.writeRegister
  dsimp only
  split
  · rfl
  · split
    · split
      · rfl
      · split
        · rfl
        · rfl
    · rfl

end Registers

/-! ## After `ioapic_init` -/

/-- The device; the call of `ioapic_set_irq` that was last made, and its stores that
are still to come. -/
structure IoApicState where
  dev : IoApic
  call : Option SetIrq
  pending : List (Nat × BitVec 32)

/-- A call; its next store, with the call if it is its last; a line is raised, and
`sent` goes out. -/
inductive IoApicEvent
  | setIrq (c : SetIrq)
  | store (done : Option SetIrq)
  | raise (line : Nat) (sent : Option IoApicMessage)
  deriving DecidableEq

/-- One step. -/
def IoApicState.after (s : IoApicState) : IoApicEvent → Option IoApicState
  | .setIrq c => if s.pending = [] then some ⟨s.dev, some c, ioapicSetIrq c⟩ else none
  | .store done =>
      match s.pending with
      | [] => none
      | (offset, value) :: rest =>
          if done = (if rest = [] then s.call else none) then
            some ⟨s.dev.store offset value, s.call, rest⟩
          else none
  | .raise line sent => if sent = s.dev.route line then some s else none

/-- The device after `ioapic_init`, from any contents, with calls one at a time and
lines raised at any moment. -/
def ioapicSystem : System IoApicState IoApicEvent where
  init s := ∃ d, s = ⟨ioapicInit d, none, []⟩
  step s e s' := s.after e = some s'

theorem setIrq_step {s s' : IoApicState} {c : SetIrq} (h : ioapicSystem.step s (.setIrq c) s') :
    s.pending = [] ∧ s' = ⟨s.dev, some c, ioapicSetIrq c⟩ := by
  simp only [ioapicSystem, IoApicState.after] at h
  split at h
  · next hidle => exact ⟨hidle, (Option.some.inj h).symm⟩
  · cases h

theorem store_step {s s' : IoApicState} {done : Option SetIrq}
    (h : ioapicSystem.step s (.store done) s') : ∃ offset value rest,
      s.pending = (offset, value) :: rest ∧ done = (if rest = [] then s.call else none) ∧
      s' = ⟨s.dev.store offset value, s.call, rest⟩ := by
  simp only [ioapicSystem, IoApicState.after] at h
  split at h
  · cases h
  · next offset value rest hpending =>
      by_cases hdone : done = if rest = [] then s.call else none
      · rw [if_pos hdone] at h
        exact ⟨offset, value, rest, hpending, hdone, (Option.some.inj h).symm⟩
      · rw [if_neg hdone] at h
        cases h

theorem raise_step {s s' : IoApicState} {line : Nat} {sent : Option IoApicMessage}
    (h : ioapicSystem.step s (.raise line sent) s') : sent = s.dev.route line ∧ s' = s := by
  simp only [ioapicSystem, IoApicState.after] at h
  split at h
  · next hsent => exact ⟨hsent, (Option.some.inj h).symm⟩
  · cases h

/-! ## Calls at once -/

/-- A call that takes effect at once, and a line that is raised. -/
inductive RoutingEvent
  | set (c : SetIrq)
  | raise (line : Nat) (sent : Option IoApicMessage)
  deriving DecidableEq

/-- A table with entries up to `n` after a call. -/
def SetIrq.on (c : SetIrq) (n : Nat) (table : Nat → Option IoApicMessage) :
    Nat → Option IoApicMessage :=
  if c.line ≤ n then Function.update table c.line c.message else table

/-- A routing table with entries up to `n`, all masked to start with. -/
def routingSystem (n : Nat) : System (Nat → Option IoApicMessage) RoutingEvent where
  init table := table = fun _ => none
  step table e table' :=
    match e with
    | .set c => table' = c.on n table
    | .raise line sent => sent = table line ∧ table' = table

/-- What an event is to the table. -/
def IoApicEvent.shown : IoApicEvent → Option RoutingEvent
  | .setIrq _ => none
  | .store done => done.map .set
  | .raise line sent => some (.raise line sent)

/-- No call moves a line that is not masked to another destination. -/
def KeepsDest (s : IoApicState) : IoApicEvent → Prop
  | .setIrq c => ∀ m ∈ s.dev.route c.line, m.dest = c.destApicId
  | _ => True

instance (s : IoApicState) : ∀ e, Decidable (KeepsDest s e)
  | .setIrq c => inferInstanceAs (Decidable (∀ m ∈ s.dev.route c.line, m.dest = c.destApicId))
  | .store _ => inferInstanceAs (Decidable True)
  | .raise _ _ => inferInstanceAs (Decidable True)

/-! ## The four stores -/

/-- The table with the call's destination and what was there else. -/
def SetIrq.halfOn (c : SetIrq) (table : Nat → Option IoApicMessage) :
    Nat → Option IoApicMessage :=
  Function.update table c.line ((table c.line).map (.to c.destApicId))

/-- Where a call stands: what the table was before it, the device, and the stores
still to come. -/
inductive SetIrqStage (c : SetIrq) (table : Nat → Option IoApicMessage) :
    IoApic → List (Nat × BitVec 32) → Prop
  | start {d : IoApic} : d.route = table → SetIrqStage c table d (ioapicSetIrq c)
  | high {d : IoApic} : d.route = table →
      d.select = (ioapicRegRedirection (c.irq.setWidth 32) + 1).setWidth 8 →
      SetIrqStage c table d ((ioapicSetIrq c).drop 1)
  | half {d : IoApic} : d.route = c.halfOn table →
      (c.line ≤ d.maxEntry → d.high c.line = c.high) →
      SetIrqStage c table d ((ioapicSetIrq c).drop 2)
  | low {d : IoApic} : d.route = c.halfOn table →
      (c.line ≤ d.maxEntry → d.high c.line = c.high) →
      d.select = (ioapicRegRedirection (c.irq.setWidth 32)).setWidth 8 →
      SetIrqStage c table d ((ioapicSetIrq c).drop 3)
  | done {d : IoApic} : d.route = c.on d.maxEntry table → SetIrqStage c table d []

section Stages

variable {c : SetIrq} {table : Nat → Option IoApicMessage} {d : IoApic} {offset : Nat}
  {value : BitVec 32} {rest : List (Nat × BitVec 32)}

/-- The half-done table holds what the other half puts in it. -/
theorem SetIrq.on_halfOn (c : SetIrq) (n : Nat) (table : Nat → Option IoApicMessage)
    (hout : n < c.line → table c.line = none) : c.on n (c.halfOn table) = c.on n table := by
  unfold SetIrq.on SetIrq.halfOn
  by_cases hin : c.line ≤ n
  · rw [if_pos hin, if_pos hin, Function.update_idem]
  · rw [if_neg hin, if_neg hin, hout (by omega), Option.map_none, ← hout (by omega),
      Function.update_eq_self]

/-- **One store of the call.** -/
theorem SetIrqStage.store (h : SetIrqStage c table d ((offset, value) :: rest))
    (hout : d.maxEntry < c.line → table c.line = none) :
    SetIrqStage c table (d.store offset value) rest := by
  generalize hpending : (offset, value) :: rest = pending at h
  cases h with
  | start hroute =>
      obtain ⟨⟨rfl, rfl⟩, rfl⟩ := by simpa [ioapicSetIrq, ioapicWrite] using hpending
      exact .high hroute rfl
  | high hroute hselect =>
      obtain ⟨⟨rfl, rfl⟩, rfl⟩ := by simpa [ioapicSetIrq, ioapicWrite] using hpending
      -- the high half holds the destination: the line is redirected
      obtain ⟨hhigh, hnew⟩ := IoApic.route_writeHigh c.irq hselect c.high
      refine .half ?_ ?_
      · rw [c.dest_high, hroute] at hnew
        exact hnew
      · intro hin
        rw [IoApic.maxEntry_store] at hin
        exact hhigh hin
  | half hroute hhigh =>
      obtain ⟨⟨rfl, rfl⟩, rfl⟩ := by simpa [ioapicSetIrq, ioapicWrite] using hpending
      exact .low hroute hhigh rfl
  | low hroute hhigh hselect =>
      obtain ⟨⟨rfl, rfl⟩, rfl⟩ := by simpa [ioapicSetIrq, ioapicWrite] using hpending
      -- the low half holds vector and mask, and completes the entry
      have hnew := IoApic.route_writeLow c.irq hselect c.low
      refine .done ?_
      rw [IoApic.maxEntry_store, ← c.on_halfOn _ _ hout, ← hroute]
      refine hnew.trans ?_
      unfold SetIrq.on SetIrq.line
      split
      · next hin =>
          have hentry : entryRoute c.low (d.high (ioapicLine c.irq)) = c.message := by
            rw [← c.route_low, ← hhigh hin, SetIrq.line]
          rw [hentry]
      · rfl
  | done => cases hpending

/-- After its last store the call is what the table says. -/
theorem SetIrqStage.finished (h : SetIrqStage c table d []) : d.route = c.on d.maxEntry table := by
  generalize hnil : ([] : List (Nat × BitVec 32)) = rest at h
  cases h with
  | done hroute => exact hroute
  | start => cases hnil
  | high => cases hnil
  | half => cases hnil
  | low => cases hnil

/-- Before its last store a call shows what was there, perhaps with its destination. -/
theorem SetIrqStage.route (h : SetIrqStage c table d rest) (hrest : rest ≠ []) :
    d.route = table ∨ d.route = c.halfOn table := by
  cases h with
  | start hroute => exact .inl hroute
  | high hroute => exact .inl hroute
  | half hroute => exact .inr hroute
  | low hroute => exact .inr hroute
  | done => exact absurd rfl hrest

/-- With its destination kept, half a call is none. -/
theorem SetIrq.halfOn_eq (h : ∀ m, table c.line = some m → m.dest = c.destApicId) :
    c.halfOn table = table := by
  unfold SetIrq.halfOn
  cases hline : table c.line with
  | none => rw [Option.map_none, ← hline, Function.update_eq_self]
  | some m =>
      have hdest := h m hline
      rw [Option.map_some, IoApicMessage.to, ← hdest, ← hline, Function.update_eq_self]

end Stages

/-! ## Calls take effect at once -/

/-- The table stands for the device; a call in progress has not changed it, and keeps
its line's destination. -/
structure Routes (s : IoApicState) (table : Nat → Option IoApicMessage) : Prop where
  route : s.dev.route = table
  pending : s.pending ≠ [] → ∃ c, s.call = some c ∧ SetIrqStage c table s.dev s.pending ∧
    ∀ m, table c.line = some m → m.dest = c.destApicId

/-- **A step of the device is a step of the table**, or nothing to it. -/
theorem Routes.step {s s' : IoApicState} {table : Nat → Option IoApicMessage} {e : IoApicEvent}
    (h : Routes s table) (hkeeps : KeepsDest s e) (hstep : ioapicSystem.step s e s') :
    ∃ table', (routingSystem s.dev.maxEntry).StepOrStay table e.shown table' ∧
      Routes s' table' ∧ s'.dev.maxEntry = s.dev.maxEntry := by
  cases e with
  | setIrq c =>
      obtain ⟨-, rfl⟩ := setIrq_step hstep
      refine ⟨table, rfl, ⟨h.route, fun _ => ⟨c, rfl, .start h.route, fun m hm => ?_⟩⟩, rfl⟩
      exact hkeeps m (h.route ▸ hm)
  | store done =>
      obtain ⟨offset, value, rest, hpending, hdone, rfl⟩ := store_step hstep
      obtain ⟨c, hcall, hstage, hdest⟩ := h.pending (by simp [hpending])
      rw [hpending] at hstage
      have hout : s.dev.maxEntry < c.line → table c.line = none := by
        intro hlt
        rw [← h.route]
        exact IoApic.route_of_lt hlt
      have hnext := hstage.store hout
      by_cases hlast : rest = []
      · -- the last store, which is the call
        subst hlast
        rw [if_pos rfl, hcall] at hdone
        subst hdone
        refine ⟨c.on s.dev.maxEntry table, rfl, ⟨?_, fun hne => absurd rfl hne⟩,
          IoApic.maxEntry_store offset value⟩
        rw [hnext.finished, IoApic.maxEntry_store]
      · rw [if_neg hlast] at hdone
        subst hdone
        refine ⟨table, rfl, ⟨?_, fun _ => ⟨c, hcall, hnext, hdest⟩⟩,
          IoApic.maxEntry_store offset value⟩
        -- before it, at most the destination is new, and that is kept
        rcases hnext.route hlast with hroute | hroute
        · exact hroute
        · rw [← SetIrq.halfOn_eq hdest]
          exact hroute
  | raise line sent =>
      obtain ⟨rfl, rfl⟩ := raise_step hstep
      exact ⟨table, ⟨by rw [h.route], rfl⟩, h, rfl⟩

/-- A device with two lines, as firmware may leave it: line 1 goes out as vector 0x71. -/
def twoLines : IoApic :=
  ⟨0x00010011, by decide, 0, fun _ => 0x71, fun _ => 0⟩

/-- While a call runs and no other is made, it stays at one of its stages, and what
goes out on its line is what went out before, that with the new destination, or what
the call is for. -/
theorem SetIrqStage.run {s s' : IoApicState} {es : List IoApicEvent} {c : SetIrq}
    {table : Nat → Option IoApicMessage} (hrun : ioapicSystem.Run s es s')
    (h : SetIrqStage c table s.dev s.pending)
    (hout : s.dev.maxEntry < c.line → table c.line = none) (hone : ∀ c', .setIrq c' ∉ es)
    {sent : Option IoApicMessage} (hsent : .raise c.line sent ∈ es) :
    sent = table c.line ∨ sent = c.halfOn table c.line ∨
      sent = c.on s.dev.maxEntry table c.line := by
  induction hrun with
  | nil => cases hsent
  | @cons s s₁ s' e es hstep _ ih =>
      have hone' : ∀ c', .setIrq c' ∉ es := fun c' hmem => hone c' (List.mem_cons_of_mem e hmem)
      cases e with
      | setIrq c' => exact absurd List.mem_cons_self (hone c')
      | store done =>
          obtain ⟨offset, value, rest, hpending, -, rfl⟩ := store_step hstep
          rw [hpending] at h
          have hmax := IoApic.maxEntry_store (d := s.dev) offset value
          have hlater := ih (h.store hout) (by rw [hmax]; exact hout) hone' (by simpa using hsent)
          rwa [hmax] at hlater
      | raise line sent' =>
          obtain ⟨rfl, rfl⟩ := raise_step hstep
          rcases List.mem_cons.mp hsent with heq | hlater
          · obtain ⟨rfl, rfl⟩ := IoApicEvent.raise.inj heq
            by_cases hrest : s₁.pending = []
            · rw [hrest] at h
              exact .inr (.inr (by rw [h.finished]))
            · rcases h.route hrest with hroute | hroute
              · exact .inl (by rw [hroute])
              · exact .inr (.inl (by rw [hroute]))
          · exact ih h hout hone' hlater

/-- Between the second store and the third, a line that sent `m` sends it to the new
destination. -/
theorem IoApicState.raise_halfway {s : IoApicState} (hidle : s.pending = []) (c : SetIrq)
    {m : IoApicMessage} (hm : s.dev.route c.line = some m) :
    ∃ es s', ioapicSystem.Run s (.setIrq c :: es) s' ∧ (∀ c', .setIrq c' ∉ es) ∧
      .raise c.line (some (m.to c.destApicId)) ∈ es := by
  have hcall : ioapicSystem.step s (.setIrq c) ⟨s.dev, some c, ioapicSetIrq c⟩ := by
    change s.after _ = _
    rw [IoApicState.after, if_pos hidle]
  set d₁ := s.dev.store ioapicRegSelect (ioapicRegRedirection (c.irq.setWidth 32) + 1)
  set d₂ := d₁.store ioapicRegWindow c.high
  have hroute : d₂.route = c.halfOn s.dev.route := by
    have hhigh := (IoApic.route_writeHigh (d := d₁) c.irq rfl c.high).2
    rw [c.dest_high] at hhigh
    exact hhigh
  have hraise : ioapicSystem.step ⟨d₂, some c, (ioapicSetIrq c).drop 2⟩
      (.raise c.line (some (m.to c.destApicId))) ⟨d₂, some c, (ioapicSetIrq c).drop 2⟩ := by
    refine if_pos ?_
    rw [hroute, SetIrq.halfOn, Function.update_self, hm, Option.map_some]
  exact ⟨[.store none, .store none, .raise c.line (some (m.to c.destApicId))], _,
    .cons hcall (.cons rfl (.cons rfl (.single hraise))), by simp, by simp⟩

/-- **When a call can be torn.** While a call runs, its line sends only what it sent
before and what it sends after, however the line is raised in between, if and only if
the line was masked, keeps its destination, or the call is for what it sent, to another
destination. Unless that holds, a message with the old vector can go out to the new
destination. -/
theorem ioapic_set_irq_torn_iff {s : IoApicState} (hidle : s.pending = []) (c : SetIrq) :
    ((∀ es s', ioapicSystem.Run s (.setIrq c :: es) s' → (∀ c', .setIrq c' ∉ es) →
      ∀ sent, .raise c.line sent ∈ es →
        sent = s.dev.route c.line ∨ sent = c.on s.dev.maxEntry s.dev.route c.line) ↔
    ∀ m ∈ s.dev.route c.line, m.dest = c.destApicId ∨ c.message = some (m.to c.destApicId)) ∧
    ((∀ m ∈ s.dev.route c.line, m.dest = c.destApicId ∨ c.message = some (m.to c.destApicId)) ∨
    ∃ m ∈ s.dev.route c.line, ∃ es s', ioapicSystem.Run s (.setIrq c :: es) s' ∧
      (∀ c', .setIrq c' ∉ es) ∧ .raise c.line (some (m.to c.destApicId)) ∈ es) := by
  have hout : s.dev.maxEntry < c.line → s.dev.route c.line = none := IoApic.route_of_lt
  have hin : ∀ {m}, s.dev.route c.line = some m → c.line ≤ s.dev.maxEntry := by
    intro m hm
    by_contra hlt
    rw [hout (by omega)] at hm
    cases hm
  refine ⟨⟨fun hwhole m hm => ?_, fun hcond es s' hrun hone sent hsent => ?_⟩, ?_⟩
  · have hm : s.dev.route c.line = some m := hm
    obtain ⟨es, s', hrun, hone, hsent⟩ := IoApicState.raise_halfway hidle c hm
    rcases hwhole _ _ hrun hone _ hsent with hbefore | hafter
    · rw [hm] at hbefore
      have hsame : m.to c.destApicId = m := Option.some.inj hbefore
      exact .inl (congrArg IoApicMessage.dest hsame).symm
    · rw [SetIrq.on, if_pos (hin hm), Function.update_self] at hafter
      exact .inr hafter.symm
  · cases hrun with
    | cons hstep hrest =>
        obtain ⟨-, rfl⟩ := setIrq_step hstep
        rcases SetIrqStage.run hrest (.start rfl) hout hone hsent with hwas | htorn | hafter
        · exact .inl hwas
        · rw [SetIrq.halfOn, Function.update_self] at htorn
          cases hline : s.dev.route c.line with
          | none =>
              rw [hline] at htorn
              exact .inl htorn
          | some m =>
              rw [hline, Option.map_some] at htorn
              rcases hcond m hline with hdest | hmessage
              · refine .inl ?_
                rw [htorn, ← hdest]
                rfl
              · refine .inr ?_
                rw [htorn, SetIrq.on, if_pos (hin hline), Function.update_self, hmessage]
        · exact .inr hafter
  · refine or_iff_not_imp_left.mpr (fun hcond => ?_)
    push Not at hcond
    obtain ⟨m, hm, -⟩ := hcond
    exact ⟨m, hm, IoApicState.raise_halfway hidle c hm⟩

/-- The keyboard, once it is unmasked, moved to another LAPIC with another vector: a
message can go out with the old vector to the new LAPIC. -/
theorem ioapic_set_irq_torn_iff_keyboard :
    (¬∀ es s', ioapicSystem.Run ⟨twoLines, none, []⟩ (.setIrq ⟨1, 33, 2, false⟩ :: es) s' →
      (∀ c', .setIrq c' ∉ es) → ∀ sent, .raise 1 sent ∈ es →
        sent = some ⟨0x71, 0, 0⟩ ∨ sent = some ⟨33, 0, 2⟩) ∧
    ∃ es s', ioapicSystem.Run ⟨twoLines, none, []⟩ (.setIrq ⟨1, 33, 2, false⟩ :: es) s' ∧
      .raise 1 (some ⟨0x71, 0, 2⟩) ∈ es := by
  obtain ⟨hiff, hsome⟩ :=
    ioapic_set_irq_torn_iff (s := ⟨twoLines, none, []⟩) rfl ⟨1, 33, 2, false⟩
  have hcond : ¬∀ m ∈ twoLines.route 1, m.dest = 2 ∨
      (⟨1, 33, 2, false⟩ : SetIrq).message = some (m.to 2) := by decide
  refine ⟨fun hwhole => hcond (hiff.mp hwhole), ?_⟩
  obtain ⟨m, hm, es, s', hrun, -, hsent⟩ := hsome.resolve_left hcond
  obtain rfl : ⟨0x71, 0, 0⟩ = m := Option.some.inj ((by decide : _ = twoLines.route 1).trans hm)
  exact ⟨es, s', hrun, hsent⟩

end QuinKernel
