import QuinKernel.Acpi.Madt

/-!
# MADT entries and their encoding

A `MadtEntry` is a sub-structure of the MADT with the bytes it declares; the
Local APIC and IOAPIC entries have at least those of their fields. `madt_parse`
on a table that holds the encodings of a list of entries, one after the other,
gives what the list says (`madt_parse_decodes`): the cursor stays in step with
the encoding whatever types and lengths the entries have, and stops at the tail.
-/

namespace QuinKernel

open Machine

/-- A sub-structure: its type, and the bytes behind type and length. -/
structure MadtEntry where
  type : Byte
  body : List Byte
  short : body.length ≤ 253
  localApic : type = madtEntryLocalApic → 6 ≤ body.length
  ioapic : type = madtEntryIoapic → 10 ≤ body.length

namespace MadtEntry

/-- The length it declares. -/
def length (e : MadtEntry) : Nat := e.body.length + 2

/-- Its bytes. -/
def encode (e : MadtEntry) : List Byte := e.type :: BitVec.ofNat 8 e.length :: e.body

/-- The 32-bit field at offset `o`. -/
def field (e : MadtEntry) (o : Nat) : BitVec 32 :=
  BitVec.ofNat 32 (loadNat (fun i => e.encode.getD i 0) o 4)

/-- A Local APIC entry with the `flags` bit of an enabled CPU. -/
def enabled (e : MadtEntry) : Bool :=
  e.type == madtEntryLocalApic && (e.field 4).getLsbD 0

def isIoapic (e : MadtEntry) : Bool := e.type == madtEntryIoapic

/-- What an entry adds to `*out`. -/
def take (e : MadtEntry) (out : MadtInfo) : MadtInfo :=
  if e.enabled then { out with enabledCpuCount := out.enabledCpuCount + 1 }
  else if e.isIoapic ∧ ¬out.haveIoapic then
    { out with
      haveIoapic := true
      ioapicAddress := (e.field 4).setWidth 64
      ioapicGsiBase := e.field 8 }
  else out

theorem length_encode (e : MadtEntry) : e.encode.length = e.length := rfl

theorem length_le (e : MadtEntry) : e.length ≤ 255 := by
  have hshort := e.short
  unfold length
  omega

end MadtEntry

/-- The bytes of a list of entries. -/
def encodeAll (es : List MadtEntry) : List Byte := es.flatMap MadtEntry.encode

/-- What may follow the last entry: a byte at most, or an entry with a length of 0
or one that leaves the table. -/
def IgnoredTail (tail : List Byte) : Prop :=
  tail.length < 2 ∨ tail.getD 1 0 = 0 ∨ tail.length < (tail.getD 1 0).toNat

/-- `bytes` lie at `p`. -/
def LaidOut (m : Mem) (p : Word) (bytes : List Byte) : Prop :=
  ∀ i < bytes.length, bytesAt m p i = bytes.getD i 0

/-- The MADT at `table` holds `es` and `tail` behind its fixed part. The pointers
that the loop compares with the end do not wrap. -/
structure MadtHolds (m : Mem) (table : Word) (es : List MadtEntry) (tail : List Byte) : Prop where
  bytes : LaidOut m (table + 44) (encodeAll es ++ tail)
  length : (tableLength m table).toNat = 44 + (encodeAll es ++ tail).length
  ignored : IgnoredTail tail
  room : table.toNat + (tableLength m table).toNat + 253 < 2 ^ 64

/-- `*out` is what the entries say. -/
structure MadtDecoded (es : List MadtEntry) (out : MadtInfo) : Prop where
  cpus : out.enabledCpuCount.toNat = es.countP MadtEntry.enabled
  ioapic : out.haveIoapic = true ↔ ∃ e ∈ es, e.type = madtEntryIoapic
  first : ∀ e, es.find? MadtEntry.isIoapic = some e →
    out.ioapicAddress = (e.field 4).setWidth 64 ∧ out.ioapicGsiBase = e.field 8

/-! ## One entry -/

section Entry

variable {m : Mem} {p : Word}

theorem LaidOut.append {xs ys : List Byte} (h : LaidOut m p (xs ++ ys)) :
    LaidOut m p xs ∧ LaidOut m (p + BitVec.ofNat 64 xs.length) ys := by
  constructor
  · intro i hi
    rw [h i (by rw [List.length_append]; omega), List.getD_append _ _ _ _ hi]
  · intro i hi
    rw [bytesAt_add, h _ (by rw [List.length_append]; omega),
      List.getD_append_right _ _ _ _ (by omega), Nat.add_sub_cancel_left]

theorem LaidOut.load32At {bytes : List Byte} (h : LaidOut m p bytes) {o : Nat}
    (ho : o + 4 ≤ bytes.length) :
    load32At m (p + BitVec.ofNat 64 o) =
      BitVec.ofNat 32 (loadNat (fun i => bytes.getD i 0) o 4) := by
  have hshift : bytesAt m (p + BitVec.ofNat 64 o) = fun i => bytesAt m p (o + i) :=
    funext (bytesAt_add m p o)
  have hcongr : loadNat (bytesAt m p) o 4 = loadNat (fun i => bytes.getD i 0) o 4 :=
    loadNat_congr 4 o (fun x _ hx => h x (by omega))
  unfold QuinKernel.load32At
  rw [hshift, loadNat_offset, Nat.add_zero, hcongr]

theorem bytesAt_zero (m : Mem) (p : Word) : bytesAt m p 0 = m p.toNat :=
  congrArg (fun q : Word => m q.toNat) (BitVec.add_zero p)

/-- The bytes behind the loop's pointers. -/
theorem entryLength_toNat {bytes : List Byte} (h : LaidOut m p bytes) (hlen : 2 ≤ bytes.length) :
    (entryLength m p).toNat = (bytes.getD 1 0).toNat := by
  have hone : m (p + 1).toNat = bytes.getD 1 0 := h 1 (by omega)
  have hlt := (bytes.getD 1 0).isLt
  unfold entryLength
  rw [hone, BitVec.toNat_setWidth, Nat.mod_eq_of_lt (by omega)]

theorem and_one_ne_zero_iff (x : BitVec 32) :
    x &&& localApicFlagEnabled ≠ 0 ↔ x.getLsbD 0 = true := by
  unfold localApicFlagEnabled
  constructor
  · intro hne
    by_contra hbit
    refine hne (BitVec.eq_of_getLsbD_eq (fun i hi => ?_))
    rw [BitVec.getLsbD_and]
    by_cases hzero : i = 0
    · subst hzero
      rw [Bool.eq_false_iff.mpr hbit]
      rfl
    · rw [show (1 : BitVec 32).getLsbD i = false by simp [hzero], Bool.and_false]
      simp
  · intro hbit hzero
    have hand : (x &&& 1).getLsbD 0 = (0 : BitVec 32).getLsbD 0 := by rw [hzero]
    rw [BitVec.getLsbD_and, hbit] at hand
    exact absurd hand (by decide)

theorem MadtEntry.enabled_iff (e : MadtEntry) :
    e.enabled = true ↔ e.type = madtEntryLocalApic ∧ (e.field 4).getLsbD 0 = true := by
  unfold enabled
  rw [Bool.and_eq_true, beq_iff_eq]

theorem MadtEntry.isIoapic_iff (e : MadtEntry) : e.isIoapic = true ↔ e.type = madtEntryIoapic :=
  beq_iff_eq

/-- **What the loop takes from an entry is what the entry says.** -/
theorem MadtEntry.takeEntry_eq (e : MadtEntry) (h : LaidOut m p e.encode) (out : MadtInfo) :
    takeEntry m p out = e.take out := by
  have hlen : e.encode.length = e.body.length + 2 := e.length_encode
  have htype : entryType m p = e.type :=
    (bytesAt_zero m p).symm.trans (h 0 (by omega))
  unfold takeEntry take
  rw [htype]
  by_cases hlapic : e.type = madtEntryLocalApic
  · have hbody := e.localApic hlapic
    have hflags : QuinKernel.load32At m (p + 4) = e.field 4 := h.load32At (o := 4) (by omega)
    have hother : ¬e.type = madtEntryIoapic := by
      rw [hlapic]
      decide
    rw [if_pos hlapic, hflags]
    by_cases hbit : (e.field 4).getLsbD 0 = true
    · rw [if_pos ((and_one_ne_zero_iff _).mpr hbit), if_pos (e.enabled_iff.mpr ⟨hlapic, hbit⟩)]
    · rw [if_neg (mt (and_one_ne_zero_iff _).mp hbit),
        if_neg (fun hand => hbit (e.enabled_iff.mp hand).2),
        if_neg (fun hand => hother (e.isIoapic_iff.mp hand.1))]
  · rw [if_neg hlapic, if_neg (fun hand => hlapic (e.enabled_iff.mp hand).1)]
    by_cases hioapic : e.type = madtEntryIoapic
    · have hbody := e.ioapic hioapic
      have haddress : QuinKernel.load32At m (p + 4) = e.field 4 := h.load32At (o := 4) (by omega)
      have hgsi : QuinKernel.load32At m (p + 8) = e.field 8 := h.load32At (o := 8) (by omega)
      rw [haddress, hgsi]
      exact if_congr (and_congr_left' e.isIoapic_iff.symm) rfl rfl
    · rw [if_neg (fun hand => hioapic hand.1),
        if_neg (fun hand => hioapic (e.isIoapic_iff.mp hand.1))]

end Entry

/-! ## The list -/

/-- The entries' contributions, one after the other. -/
def takeAll (es : List MadtEntry) (out : MadtInfo) : MadtInfo :=
  es.foldl (fun out e => e.take out) out

theorem takeAll_cpus (es : List MadtEntry) : ∀ out : MadtInfo,
    (takeAll es out).enabledCpuCount =
      out.enabledCpuCount + BitVec.ofNat 32 (es.countP MadtEntry.enabled) := by
  induction es with
  | nil => intro out; exact (BitVec.add_zero _).symm
  | cons e es ih =>
      intro out
      have hhead : (e.take out).enabledCpuCount =
          out.enabledCpuCount + if e.enabled then 1 else 0 := by
        unfold MadtEntry.take
        cases e.enabled with
        | true => rfl
        | false =>
            rw [if_neg Bool.false_ne_true, if_neg Bool.false_ne_true,
              show out.enabledCpuCount + 0 = out.enabledCpuCount from BitVec.add_zero _]
            split <;> rfl
      show (takeAll es (e.take out)).enabledCpuCount = _
      rw [ih, hhead, List.countP_cons, BitVec.ofNat_add, BitVec.add_assoc,
        BitVec.add_comm (BitVec.ofNat 32 (es.countP MadtEntry.enabled))]
      cases e.enabled <;> rfl

/-- Once an IOAPIC is found, the fields stay. -/
theorem takeAll_found (es : List MadtEntry) : ∀ {out : MadtInfo}, out.haveIoapic = true →
    (takeAll es out).haveIoapic = true ∧ (takeAll es out).ioapicAddress = out.ioapicAddress ∧
      (takeAll es out).ioapicGsiBase = out.ioapicGsiBase := by
  induction es with
  | nil => intro out hhave; exact ⟨hhave, rfl, rfl⟩
  | cons e es ih =>
      intro out hhave
      have hhead : (e.take out).haveIoapic = true ∧
          (e.take out).ioapicAddress = out.ioapicAddress ∧
          (e.take out).ioapicGsiBase = out.ioapicGsiBase := by
        unfold MadtEntry.take
        split
        · exact ⟨hhave, rfl, rfl⟩
        · rw [if_neg (fun hand => hand.2 hhave)]
          exact ⟨hhave, rfl, rfl⟩
      obtain ⟨hfound, haddress, hgsi⟩ := ih hhead.1
      exact ⟨hfound, haddress.trans hhead.2.1, hgsi.trans hhead.2.2⟩

/-- Until then, the first IOAPIC entry decides. -/
theorem takeAll_search (es : List MadtEntry) : ∀ {out : MadtInfo}, out.haveIoapic = false →
    (takeAll es out).haveIoapic = es.any MadtEntry.isIoapic ∧
      ∀ e, es.find? MadtEntry.isIoapic = some e →
        (takeAll es out).ioapicAddress = (e.field 4).setWidth 64 ∧
          (takeAll es out).ioapicGsiBase = e.field 8 := by
  induction es with
  | nil =>
      intro out hnone
      exact ⟨hnone, fun e he => by cases he⟩
  | cons e es ih =>
      intro out hnone
      show (takeAll es (e.take out)).haveIoapic = _ ∧ _
      cases hioapic : e.isIoapic with
      | true =>
          have htype := e.isIoapic_iff.mp hioapic
          have hcpu : ¬e.enabled = true := by
            rw [e.enabled_iff, htype]
            exact fun hand => absurd hand.1 (by decide)
          have htake : e.take out = { out with
              haveIoapic := true
              ioapicAddress := (e.field 4).setWidth 64
              ioapicGsiBase := e.field 8 } := by
            unfold MadtEntry.take
            rw [if_neg hcpu, if_pos ⟨hioapic, by simp [hnone]⟩]
          obtain ⟨hfound, haddress, hgsi⟩ := takeAll_found es
            (show (e.take out).haveIoapic = true by rw [htake])
          refine ⟨by simp [hfound, hioapic], fun e' he' => ?_⟩
          rw [List.find?_cons_of_pos hioapic] at he'
          cases he'
          refine ⟨haddress.trans ?_, hgsi.trans ?_⟩ <;> rw [htake]
      | false =>
          have hstill : (e.take out).haveIoapic = false := by
            unfold MadtEntry.take
            split
            · exact hnone
            · rw [if_neg (fun hand => by simp [hioapic] at hand)]
              exact hnone
          obtain ⟨hany, hfirst⟩ := ih hstill
          refine ⟨by simp [hany, hioapic], fun e' he' => hfirst e' ?_⟩
          rwa [List.find?_cons_of_neg (by simp [hioapic])] at he'

/-! ## The walk -/

section Walk

variable {m : Mem} {end_ : Word}

/-- The loop stops at the tail. -/
theorem madtWalk_tail {tail : List Byte} (htail : IgnoredTail tail) {cursor : Word}
    (h : LaidOut m cursor tail) (hend : cursor.toNat + tail.length = end_.toNat)
    (hroom : end_.toNat + 253 < 2 ^ 64) (fuel : Nat) (out : MadtInfo) :
    ∃ reads, madtWalk m end_ (fuel + 1) cursor out = some (reads, out) := by
  have htwo : (cursor + 2).toNat = cursor.toNat + 2 :=
    BitVec.toNat_add_of_lt (show cursor.toNat + 2 < 2 ^ 64 by omega)
  unfold madtWalk
  by_cases hheader : cursor + 2 ≤ end_
  · rw [if_pos hheader]
    rw [BitVec.le_def, htwo] at hheader
    have hlen := entryLength_toNat h (by omega)
    have hbyte := (tail.getD 1 0).isLt
    have hbad : entryLength m cursor = 0 ∨ end_ < cursor + entryLength m cursor := by
      rcases htail with hshort | hzero | hover
      · omega
      · exact .inl (BitVec.eq_of_toNat_eq (by rw [hlen, hzero]; rfl))
      · refine .inr ?_
        rw [BitVec.lt_def, BitVec.toNat_add, hlen, Nat.mod_eq_of_lt (by omega)]
        omega
    rw [if_pos hbad]
    exact ⟨_, rfl⟩
  · rw [if_neg hheader]
    exact ⟨[], rfl⟩

/-- **The cursor stays in step with the encoding.** -/
theorem madtWalk_entries {tail : List Byte} (htail : IgnoredTail tail)
    (hroom : end_.toNat + 253 < 2 ^ 64) {es : List MadtEntry} : ∀ {cursor : Word} {fuel : Nat},
    LaidOut m cursor (encodeAll es ++ tail) →
    cursor.toNat + (encodeAll es ++ tail).length = end_.toNat → es.length < fuel →
    ∀ out, ∃ reads, madtWalk m end_ fuel cursor out = some (reads, takeAll es out) := by
  induction es with
  | nil =>
      intro cursor fuel h hend hfuel out
      obtain ⟨n, rfl⟩ := Nat.exists_eq_succ_of_ne_zero (Nat.ne_of_gt hfuel)
      exact madtWalk_tail htail h hend hroom n out
  | cons e es ih =>
      intro cursor fuel h hend hfuel out
      obtain ⟨n, rfl⟩ := Nat.exists_eq_succ_of_ne_zero (Nat.ne_of_gt (Nat.zero_lt_of_lt hfuel))
      have hsplit : encodeAll (e :: es) ++ tail = e.encode ++ (encodeAll es ++ tail) := by
        unfold encodeAll
        rw [List.flatMap_cons, List.append_assoc]
      rw [hsplit] at h hend
      rw [List.length_append, e.length_encode] at hend
      rw [List.length_cons] at hfuel
      obtain ⟨hentry, hrest⟩ := h.append
      rw [e.length_encode] at hrest
      have hle := e.length_le
      -- the two bytes of the header lie inside the table
      have hheader : cursor + 2 ≤ end_ := by
        have htwo : (cursor + 2).toNat = cursor.toNat + 2 :=
          BitVec.toNat_add_of_lt (show cursor.toNat + 2 < 2 ^ 64 by omega)
        have hmin : 2 ≤ e.length := Nat.le_add_left 2 _
        rw [BitVec.le_def, htwo]
        omega
      have hlen : (entryLength m cursor).toNat = e.length := by
        rw [entryLength_toNat hentry (by rw [e.length_encode]; exact Nat.le_add_left 2 _)]
        show (BitVec.ofNat 8 e.length).toNat = e.length
        rw [BitVec.toNat_ofNat, Nat.mod_eq_of_lt (by omega)]
      have hword : entryLength m cursor = BitVec.ofNat 64 e.length := by
        rw [← hlen, BitVec.ofNat_toNat, BitVec.setWidth_eq]
      have hnext : (cursor + entryLength m cursor).toNat = cursor.toNat + e.length := by
        rw [BitVec.toNat_add_of_lt (by omega), hlen]
      -- the walk goes on: the length is not 0, and the entry ends inside
      have hfits : ¬(entryLength m cursor = 0 ∨ end_ < cursor + entryLength m cursor) := by
        rintro (hzero | hover)
        · rw [hzero] at hlen
          exact absurd hlen (Nat.succ_ne_zero _).symm
        · rw [BitVec.lt_def, hnext] at hover
          omega
      rw [← hword] at hrest
      obtain ⟨reads, hrun⟩ := ih hrest (by rw [hnext]; omega) (Nat.lt_of_succ_lt_succ hfuel)
        (e.take out)
      unfold madtWalk
      rw [if_pos hheader, if_neg hfits, e.takeEntry_eq hentry, hrun]
      exact ⟨_, rfl⟩

end Walk

/-! ## The result -/

theorem length_le_encodeAll (es : List MadtEntry) : 2 * es.length ≤ (encodeAll es).length := by
  induction es with
  | nil => exact Nat.le_refl _
  | cons e es ih =>
      have hsplit : encodeAll (e :: es) = e.encode ++ encodeAll es := List.flatMap_cons
      rw [hsplit, List.length_append, e.length_encode, List.length_cons]
      unfold MadtEntry.length
      omega

theorem takeAll_decoded (m : Mem) (table : Word) {es : List MadtEntry}
    (hmany : es.length < 2 ^ 32) : MadtDecoded es (takeAll es (madtStart m table)) := by
  obtain ⟨hany, hfirst⟩ := takeAll_search es (show (madtStart m table).haveIoapic = false from rfl)
  refine ⟨?_, ?_, hfirst⟩
  · have hcount := List.countP_le_length (p := MadtEntry.enabled) (l := es)
    rw [takeAll_cpus]
    show (0 + BitVec.ofNat 32 _).toNat = _
    rw [show (0 : BitVec 32) + BitVec.ofNat 32 _ = BitVec.ofNat 32 _ from BitVec.zero_add _,
      BitVec.toNat_ofNat, Nat.mod_eq_of_lt (by omega)]
  · rw [hany, List.any_eq_true]
    exact exists_congr (fun e => and_congr_right' e.isIoapic_iff)

/-- **`madt_parse` decodes the entries.** On a table that holds any list of entries
and a tail to ignore, it ends and returns true, with what the entries say in
`*out`. -/
theorem madt_parse_decodes {a : Acpi} {m : Mem} {apic table : Word}
    (hfind : acpiFindTable a m apic = .ok (some table)) {es : List MadtEntry} {tail : List Byte}
    (h : MadtHolds m table es tail) :
    ∀ fuel, es.length < fuel → ∃ reads out,
      madtParse a m apic fuel = .ok (some (true, reads, out)) ∧ MadtDecoded es out := by
  intro fuel hfuel
  have hlength := h.length
  have hroom := h.room
  have hbound := (tableLength m table).isLt
  have hend : (madtEnd m table).toNat = table.toNat + (tableLength m table).toNat := by
    unfold madtEnd
    rw [BitVec.toNat_add, BitVec.toNat_setWidth, Nat.mod_eq_of_lt (by omega),
      Nat.mod_eq_of_lt (by omega)]
  have hfirst : (table + 44).toNat = table.toNat + 44 :=
    BitVec.toNat_add_of_lt (show table.toNat + 44 < 2 ^ 64 by omega)
  obtain ⟨reads, hrun⟩ := madtWalk_entries h.ignored (show (madtEnd m table).toNat + 253 < _ by omega)
    h.bytes (by omega) hfuel (madtStart m table)
  have hmany := length_le_encodeAll es
  rw [List.length_append] at hlength
  have hdecoded : MadtDecoded es (takeAll es (madtStart m table)) :=
    takeAll_decoded m table (by omega)
  refine ⟨⟨table + 36, 4⟩ :: ⟨table + 4, 4⟩ :: reads, takeAll es (madtStart m table), ?_, hdecoded⟩
  rw [madtParse_eq hfind]
  unfold madtParseTable
  rw [hrun]
  rfl

/-- An enabled CPU, an entry of another kind, and a tail of one byte. -/
theorem madt_parse_decodes_oneCpu :
    ∃ reads out, madtParse ⟨0, 0x2000, 1, false⟩
        (madtImage 59 137 [0, 8, 0, 0, 1, 0, 0, 0, 9, 6, 0, 0, 0, 0, 7]) 0x4000 3 =
          .ok (some (true, reads, out)) ∧ out.enabledCpuCount = 1 := by
  have hfind : acpiFindTable ⟨0, 0x2000, 1, false⟩
      (madtImage 59 137 [0, 8, 0, 0, 1, 0, 0, 0, 9, 6, 0, 0, 0, 0, 7]) 0x4000 =
        .ok (some 0x3000) := by decide +kernel
  have hholds : MadtHolds (madtImage 59 137 [0, 8, 0, 0, 1, 0, 0, 0, 9, 6, 0, 0, 0, 0, 7]) 0x3000
      [⟨0, [0, 0, 1, 0, 0, 0], by decide, by decide, by decide⟩,
        ⟨9, [0, 0, 0, 0], by decide, by decide, by decide⟩] [7] :=
    ⟨by unfold LaidOut; decide +kernel, by decide +kernel, by unfold IgnoredTail; decide,
      by decide +kernel⟩
  obtain ⟨reads, out, hrun, hdecoded⟩ := madt_parse_decodes hfind hholds 3 (by decide)
  exact ⟨reads, out, hrun, BitVec.eq_of_toNat_eq (hdecoded.cpus.trans (by decide +kernel))⟩

end QuinKernel
