import QuinKernel.Framebuffer.Pixels
import QuinKernel.Machine.Terminal

/-!
# The console is a terminal

A cell of the terminal is blank or a character with its colour; `ShowsGrid`
says that the pixels of every cell show it, and that the strip of pixel rows
below the last full cell row is blank. Drawing a glyph sets one cell
(`ShowsGrid.draw`). Scrolling moves whole pixel rows, so it moves whole cells,
and the last cell row is filled from the strip and the cleared rows, which are
both blank (`ShowsGrid.scroll`).
-/

namespace QuinKernel

open Machine

/-- A character and its foreground colour, or a blank. -/
abbrev ConsoleCell := Option (Byte × BitVec 32)

/-- `fb_console_putc` with a black background, on a terminal. -/
def Machine.Terminal.putc {rows cols : Nat} (t : Terminal rows cols ConsoleCell)
    (p : Byte × BitVec 32) : Terminal rows cols ConsoleCell :=
  if p.1 = 10 then t.newline none else t.write none (some p)

namespace BootFramebuffer

variable (fb : BootFramebuffer)

/-- The cell columns. -/
def cols : Nat := fb.width.toNat / 8

/-- The cell rows. -/
def rows : Nat := fb.height.toNat / 8

/-- The native colour of a pixel of a character. -/
def glyphColor (c : Byte) (fgRgb bgRgb : BitVec 32) (gx gy : Nat) : BitVec 32 :=
  if ((font8x8Basic.getD (c &&& 0x7f).toNat []).getD gy 0).getLsbD gx then packColor fb fgRgb
  else packColor fb bgRgb

/-- What a pixel of a cell holds. -/
def cellShade (cell : ConsoleCell) (gx gy : Nat) : Nat :=
  match cell with
  | none => fb.shade (packColor fb fbBlack)
  | some p => fb.shade (fb.glyphColor p.1 p.2 fbBlack gx gy)

end BootFramebuffer

/-- The console shows a grid of cells, and nothing below it. -/
structure ShowsGrid (fb : BootFramebuffer) (s : FbConsole)
    (cell : Fin fb.rows → Fin fb.cols → ConsoleCell) : Prop where
  draws : s.Draws fb
  size : s.consoleCols.toNat = fb.cols ∧ s.consoleRows.toNat = fb.rows
  cells : ∀ (r : Fin fb.rows) (c : Fin fb.cols) gx gy, gx < 8 → gy < 8 →
    fb.pixelAt s.mem (8 * c + gx) (8 * r + gy) = fb.cellShade (cell r c) gx gy
  strip : ∀ x y, x < fb.width.toNat → 8 * fb.rows ≤ y → y < fb.height.toNat →
    fb.pixelAt s.mem x y = 0

/-- The console shows a terminal. -/
structure ShowsTerminal (fb : BootFramebuffer) (s : FbConsole)
    (t : Terminal fb.rows fb.cols ConsoleCell) : Prop where
  grid : ShowsGrid fb s t.cell
  cursor : s.cursorCol.toNat = t.col ∧ s.cursorRow.toNat = t.row

/-! ## Rectangles -/

section Rectangles

variable {fb : BootFramebuffer} {s : FbConsole}

theorem BootFramebuffer.Ok.rows_pos (h : fb.Ok) : 0 < fb.rows := by
  have := h.height
  unfold BootFramebuffer.rows
  omega

theorem BootFramebuffer.Ok.cols_pos (h : fb.Ok) : 0 < fb.cols := by
  have := h.width
  unfold BootFramebuffer.cols
  omega

/-- Cells lie in the visible part. -/
theorem BootFramebuffer.cell_visible {r : Fin fb.rows} {c : Fin fb.cols} {gx gy : Nat}
    (hgx : gx < 8) (hgy : gy < 8) :
    8 * c.val + gx < fb.width.toNat ∧ 8 * r.val + gy < fb.height.toNat := by
  have hc : c.val < fb.width.toNat / 8 := c.isLt
  have hr : r.val < fb.height.toNat / 8 := r.isLt
  omega

theorem Plotted.congr {S U : Nat → Nat → Prop} {f : Nat → Nat → Nat} {s' : FbConsole}
    (h : Plotted fb S f s s') (hSU : ∀ x y, U x y ↔ S x y) : Plotted fb U f s s' := by
  have heq : U = S := funext fun x => funext fun y => propext (hSU x y)
  rwa [heq]

/-- Black is black in every mode. -/
theorem packColor_black (fb : BootFramebuffer) : packColor fb fbBlack = 0 := by
  have hcomponent : ∀ size shift : Byte, packComponent 0 size shift = 0 := by
    intro size shift
    unfold packComponent
    split <;> simp
  have hzero : ∀ k : Nat, ((fbBlack >>> k).setWidth 8 : Byte) = 0 := fun k => by simp [fbBlack]
  have hlow : (fbBlack.setWidth 8 : Byte) = 0 := rfl
  unfold packColor
  rw [hzero, hzero, hlow, hcomponent, hcomponent, hcomponent]
  rfl

theorem BootFramebuffer.shade_zero (fb : BootFramebuffer) : fb.shade 0 = 0 := by
  simp [BootFramebuffer.shade]

/-- **`fb_clear`** plots every visible pixel. -/
theorem fbClear_plotted (hfb : fb.Ok) (hs : s.Draws fb) (colorRgb : BitVec 32) :
    Plotted fb (fun x y => x < fb.width.toNat ∧ y < fb.height.toNat)
      (fun _ _ => fb.shade (packColor fb colorRgb)) s (fbClear s colorRgb) := by
  have hcount : ∀ {n k : Nat}, k < 2 ^ 32 → n < k → (BitVec.ofNat 32 n).toNat = n :=
    fun hk hn => by rw [BitVec.toNat_ofNat, Nat.mod_eq_of_lt (by omega)]
  have hrow : ∀ y, y < fb.height.toNat → ∀ s : FbConsole, s.Draws fb →
      Plotted fb (fun x y' => ∃ i, i < fb.width.toNat ∧ x = i ∧ y' = y)
        (fun _ _ => fb.shade (packColor fb colorRgb)) s
        (countingLoop (fun x => fun s => s.putPixelRaw (BitVec.ofNat 32 x) (BitVec.ofNat 32 y)
          (packColor fb colorRgb)) s s.fb.width.toNat) := by
    intro y hy s hs
    rw [hs.mode]
    refine loop_plotted hs (fun x hx s hs => ?_)
    have hx' := hcount hfb.width.2 hx
    have hy' := hcount hfb.height.2 hy
    have hpixel := putPixelRaw_plotted (f := fun _ _ => fb.shade (packColor fb colorRgb)) hfb hs
      (BitVec.ofNat 32 x) (BitVec.ofNat 32 y) _ (by rwa [hx']) (by rwa [hy']) rfl
    rwa [hx', hy'] at hpixel
  unfold fbClear
  rw [hs.mode]
  refine (loop_plotted hs hrow).congr (fun x y => ?_)
  constructor
  · rintro ⟨hx, hy⟩
    exact ⟨y, hy, x, hx, rfl, rfl⟩
  · rintro ⟨y', hy', x', hx', rfl, rfl⟩
    exact ⟨hx', hy'⟩

/-- **`draw_glyph`** plots its cell. -/
theorem drawGlyph_plotted (hfb : fb.Ok) (hs : s.Draws fb) (col row : BitVec 32)
    (hcol : col.toNat < fb.cols) (hrow : row.toNat < fb.rows) (c : Byte)
    (fgRgb bgRgb : BitVec 32) :
    Plotted fb (fun x y => x / 8 = col.toNat ∧ y / 8 = row.toNat)
      (fun x y => fb.shade (fb.glyphColor c fgRgb bgRgb (x % 8) (y % 8))) s
      (s.drawGlyph col row c fgRgb bgRgb) := by
  have hwidth := hfb.width
  have hheight := hfb.height
  unfold BootFramebuffer.cols at hcol
  unfold BootFramebuffer.rows at hrow
  have horigin : ∀ {w : BitVec 32} {n g : Nat}, n < 2 ^ 32 → w.toNat < n / 8 → g < 8 →
      (w * BitVec.ofNat 32 8 + BitVec.ofNat 32 g).toNat = 8 * w.toNat + g := by
    intro w n g hn hw hg
    rw [BitVec.toNat_add, BitVec.toNat_mul, BitVec.toNat_ofNat, BitVec.toNat_ofNat,
      Nat.mod_eq_of_lt (by omega : 8 < 2 ^ 32), Nat.mod_eq_of_lt (by omega : g < 2 ^ 32),
      Nat.mod_eq_of_lt (by omega : w.toNat * 8 < 2 ^ 32), Nat.mod_eq_of_lt (by omega), Nat.mul_comm]
  have hline : ∀ gy, gy < 8 → ∀ s : FbConsole, s.Draws fb →
      Plotted fb (fun x y => ∃ gx, gx < 8 ∧ x = 8 * col.toNat + gx ∧ y = 8 * row.toNat + gy)
        (fun x y => fb.shade (fb.glyphColor c fgRgb bgRgb (x % 8) (y % 8))) s
        (countingLoop (fun gx => fun s => s.putPixelRaw (col * BitVec.ofNat 32 8 + BitVec.ofNat 32 gx)
          (row * BitVec.ofNat 32 8 + BitVec.ofNat 32 gy) (fb.glyphColor c fgRgb bgRgb gx gy)) s 8) := by
    intro gy hgy s hs
    refine loop_plotted hs (fun gx hgx s hs => ?_)
    have hx := horigin hwidth.2 hcol hgx
    have hy := horigin hheight.2 hrow hgy
    have hpixel := putPixelRaw_plotted
      (f := fun x y => fb.shade (fb.glyphColor c fgRgb bgRgb (x % 8) (y % 8))) hfb hs
      (col * BitVec.ofNat 32 8 + BitVec.ofNat 32 gx) (row * BitVec.ofNat 32 8 + BitVec.ofNat 32 gy)
      (fb.glyphColor c fgRgb bgRgb gx gy) (by omega) (by omega) ?_
    · rwa [hx, hy] at hpixel
    · rw [hx, hy, Nat.mul_add_mod, Nat.mul_add_mod, Nat.mod_eq_of_lt hgx, Nat.mod_eq_of_lt hgy]
  have hloops := loop_plotted hs hline
  unfold FbConsole.drawGlyph
  rw [hs.mode]
  refine hloops.congr (fun x y => ?_)
  constructor
  · rintro ⟨hx, hy⟩
    exact ⟨y % 8, by omega, x % 8, by omega, by omega, by omega⟩
  · rintro ⟨gy, hgy, gx, hgx, rfl, rfl⟩
    omega

/-- The bytes `scroll_one_row` moves and clears. -/
theorem scroll_sizes (hfb : fb.Ok) :
    (BitVec.ofNat 64 cellH * fb.pitch).toNat = 8 * fb.pitch.toNat ∧
      ((fb.height - BitVec.ofNat 64 cellH) * fb.pitch).toNat =
        (fb.height.toNat - 8) * fb.pitch.toNat ∧
      8 * fb.pitch.toNat + (fb.height.toNat - 8) * fb.pitch.toNat =
        fb.height.toNat * fb.pitch.toNat ∧
      fb.address.toNat + fb.height.toNat * fb.pitch.toNat ≤ 2 ^ 64 ∧
      0 < fb.address.toNat ∧ 0 < fb.pitch.toNat := by
  have hfits : fb.address.toNat + fb.height.toNat * fb.pitch.toNat ≤ 2 ^ 64 := hfb.fits
  have hheight := hfb.height
  have haddress : 0 < fb.address.toNat :=
    Nat.pos_of_ne_zero fun h => hfb.address (BitVec.eq_of_toNat_eq h)
  have hpitch : 0 < fb.pitch.toNat := by
    have hrow := Nat.mul_le_mul hheight.1 (Nat.succ_le_of_lt hfb.pixelBytes_pos)
    have hwide := Nat.mul_le_mul hfb.width.1 (Nat.succ_le_of_lt hfb.pixelBytes_pos)
    have := hfb.pitch
    omega
  have hsplit : 8 * fb.pitch.toNat + (fb.height.toNat - 8) * fb.pitch.toNat =
      fb.height.toNat * fb.pitch.toNat := by
    rw [← Nat.add_mul, Nat.add_sub_cancel' hheight.1]
  have hsub : (fb.height - BitVec.ofNat 64 cellH).toNat = fb.height.toNat - 8 :=
    BitVec.toNat_sub_of_le (BitVec.le_def.mpr hheight.1)
  refine ⟨?_, ?_, hsplit, hfits, haddress, hpitch⟩
  · rw [BitVec.toNat_mul, show (BitVec.ofNat 64 cellH).toNat = 8 from rfl,
      Nat.mod_eq_of_lt (by omega)]
  · rw [BitVec.toNat_mul, hsub, Nat.mod_eq_of_lt (by omega)]

/-- **`scroll_one_row`**, byte by byte: what lay eight pixel rows further on, and
zeros in the last eight. -/
theorem scrollOneRow_mem (hfb : fb.Ok) (hs : s.Draws fb) (a : Nat) :
    s.scrollOneRow.mem a =
      if fb.address.toNat ≤ a ∧ a < fb.address.toNat + (fb.height.toNat - 8) * fb.pitch.toNat then
        s.mem (8 * fb.pitch.toNat + a)
      else if fb.address.toNat ≤ a ∧ a < fb.limit then 0
      else s.mem a := by
  obtain ⟨hrow, hremaining, hsplit, hfits, haddress, hpitch⟩ := scroll_sizes hfb
  simp only [FbConsole.scrollOneRow, hs.mode, hrow, hremaining]
  have hdest : (fb.address + (fb.height - BitVec.ofNat 64 cellH) * fb.pitch).toNat =
      fb.address.toNat + (fb.height.toNat - 8) * fb.pitch.toNat := by
    rw [BitVec.toNat_add, hremaining, Nat.mod_eq_of_lt (by omega)]
  have hsrc : 0 < (fb.height.toNat - 8) * fb.pitch.toNat →
      (fb.address + BitVec.ofNat 64 cellH * fb.pitch).toNat =
        fb.address.toNat + 8 * fb.pitch.toNat := by
    intro hpos
    rw [BitVec.toNat_add, hrow, Nat.mod_eq_of_lt (by omega)]
  rw [memset_apply, hdest, memmove_apply]
  unfold BootFramebuffer.limit
  by_cases hmoved : fb.address.toNat ≤ a ∧
      a < fb.address.toNat + (fb.height.toNat - 8) * fb.pitch.toNat
  · rw [if_neg (by omega), if_pos hmoved, if_pos hmoved, hsrc (by omega)]
    congr 1
    omega
  · rw [if_neg hmoved, if_neg hmoved]
    by_cases hcleared : fb.address.toNat ≤ a ∧
        a < fb.address.toNat + fb.height.toNat * fb.pitch.toNat
    · rw [if_pos (by omega), if_pos hcleared]
      rfl
    · rw [if_neg (by omega), if_neg hcleared]

/-- Scrolling moves the pixels up by a cell and clears the last eight rows. -/
theorem scrollOneRow_pixelAt (hfb : fb.Ok) (hs : s.Draws fb) {x y : Nat}
    (hx : x < fb.width.toNat) (hy : y < fb.height.toNat) :
    fb.pixelAt s.scrollOneRow.mem x y =
      if y + 8 < fb.height.toNat then fb.pixelAt s.mem x (y + 8) else 0 := by
  have hpixel := hfb.pixel_le (y := y) hx
  have hlimit := hfb.pixel_le_limit hx hy
  have hlow : fb.address.toNat + y * fb.pitch.toNat ≤ fb.pixelAddr x y :=
    Nat.le_add_right _ _
  by_cases hmoved : y + 8 < fb.height.toNat
  · rw [if_pos hmoved]
    have hrows : (y + 1) * fb.pitch.toNat ≤ (fb.height.toNat - 8) * fb.pitch.toNat :=
      Nat.mul_le_mul_right _ (by omega)
    have haddr : fb.pixelAddr x (y + 8) = 8 * fb.pitch.toNat + fb.pixelAddr x y := by
      unfold BootFramebuffer.pixelAddr
      rw [Nat.add_mul]
      omega
    rw [BootFramebuffer.pixelAt, BootFramebuffer.pixelAt, haddr, ← loadNat_offset]
    refine loadNat_congr _ _ (fun a hlo hhi => ?_)
    rw [scrollOneRow_mem hfb hs, if_pos (by omega)]
  · rw [if_neg hmoved]
    have hrows : (fb.height.toNat - 8) * fb.pitch.toNat ≤ y * fb.pitch.toNat :=
      Nat.mul_le_mul_right _ (by omega)
    refine loadNat_zero _ _ (fun a hlo hhi => ?_)
    rw [scrollOneRow_mem hfb hs, if_neg (by omega), if_pos (by omega)]

theorem scrollOneRow_agreeOff (hfb : fb.Ok) (hs : s.Draws fb) :
    AgreeOff fb.address.toNat fb.limit s.mem s.scrollOneRow.mem := by
  intro a ha
  have hsizes := scroll_sizes hfb
  have hlimit : fb.limit = fb.address.toNat + fb.height.toNat * fb.pitch.toNat := rfl
  rw [scrollOneRow_mem hfb hs, if_neg (by omega), if_neg (by omega)]

end Rectangles

/-! ## The grid -/

section Grid

variable {fb : BootFramebuffer} {s s' : FbConsole} {cell : Fin fb.rows → Fin fb.cols → ConsoleCell}

theorem BootFramebuffer.cellShade_blank (gx gy : Nat) : fb.cellShade none gx gy = 0 := by
  show fb.shade (packColor fb fbBlack) = 0
  rw [packColor_black, fb.shade_zero]

/-- The cursor and whatever else is not drawn does not matter. -/
theorem ShowsGrid.congr (h : ShowsGrid fb s cell) (hfb : s'.fb = s.fb)
    (hbytes : s'.bytesPerPixel = s.bytesPerPixel) (hcols : s'.consoleCols = s.consoleCols)
    (hrows : s'.consoleRows = s.consoleRows) (hmem : s'.mem = s.mem) : ShowsGrid fb s' cell :=
  ⟨⟨hfb.trans h.draws.mode, hbytes ▸ h.draws.bytes⟩, hcols ▸ hrows ▸ h.size, hmem ▸ h.cells,
    hmem ▸ h.strip⟩

/-- **A glyph** sets its cell. -/
theorem ShowsGrid.draw (h : ShowsGrid fb s cell) (hfb : fb.Ok) {col row : BitVec 32}
    {c : Fin fb.cols} {r : Fin fb.rows} (hcol : col.toNat = c) (hrow : row.toNat = r) (char : Byte)
    (fgRgb : BitVec 32) :
    ShowsGrid fb (s.drawGlyph col row char fgRgb fbBlack)
      (fun r' c' => if r' = r ∧ c' = c then some (char, fgRgb) else cell r' c') := by
  have hplot := drawGlyph_plotted hfb h.draws col row (hcol ▸ c.isLt)
    (hrow ▸ r.isLt) char fgRgb fbBlack
  refine ⟨hplot.draws h.draws, ?_, fun r' c' gx gy hgx hgy => ?_, fun x y hx hstrip hy => ?_⟩
  · rw [hplot.statics]
    exact h.size
  · obtain ⟨hx, hy⟩ := BootFramebuffer.cell_visible (r := r') (c := c') hgx hgy
    by_cases hcell : r' = r ∧ c' = c
    · obtain ⟨rfl, rfl⟩ := hcell
      rw [if_pos ⟨rfl, rfl⟩, hplot.color _ _ hx hy (by omega), Nat.mul_add_mod, Nat.mul_add_mod,
        Nat.mod_eq_of_lt hgx, Nat.mod_eq_of_lt hgy]
      rfl
    · rw [if_neg hcell, hplot.keep _ _ hx hy ?_]
      · exact h.cells r' c' gx gy hgx hgy
      · rintro ⟨hc, hr⟩
        exact hcell ⟨Fin.ext (by omega), Fin.ext (by omega)⟩
  · rw [hplot.keep _ _ hx hy ?_]
    · exact h.strip x y hx hstrip hy
    · have := r.isLt
      omega

/-- **Scrolling** drops the top row of cells and appends a blank one. -/
theorem ShowsGrid.scroll (h : ShowsGrid fb s cell) (hfb : fb.Ok) :
    ShowsGrid fb s.scrollOneRow
      (fun r c => if hr : r.val + 1 < fb.rows then cell ⟨r.val + 1, hr⟩ c else none) := by
  have hrows : 8 * fb.rows ≤ fb.height.toNat ∧ fb.height.toNat < 8 * fb.rows + 8 := by
    unfold BootFramebuffer.rows
    omega
  refine ⟨⟨h.draws.mode, h.draws.bytes⟩, h.size, fun r c gx gy hgx hgy => ?_,
    fun x y hx hstrip hy => ?_⟩
  · obtain ⟨hx, hy⟩ := BootFramebuffer.cell_visible (r := r) (c := c) hgx hgy
    have hr := r.isLt
    rw [scrollOneRow_pixelAt hfb h.draws hx hy]
    by_cases hnext : r.val + 1 < fb.rows
    · have hbelow := h.cells ⟨r.val + 1, hnext⟩ c gx gy hgx hgy
      have hrow : 8 * r.val + gy + 8 = 8 * (r.val + 1) + gy := by omega
      rw [dif_pos hnext, if_pos (by omega), ← hbelow, hrow]
    · -- the last row of cells is filled from the strip, and zeros
      rw [dif_neg hnext, BootFramebuffer.cellShade_blank]
      split
      · next hstrip => exact h.strip _ _ hx (by omega) hstrip
      · rfl
  · rw [scrollOneRow_pixelAt hfb h.draws hx hy, if_neg (by omega)]

/-- **`fb_clear`** leaves a blank grid. -/
theorem ShowsGrid.clear (hfb : fb.Ok) (hs : s.Draws fb)
    (hsize : s.consoleCols.toNat = fb.cols ∧ s.consoleRows.toNat = fb.rows) :
    ShowsGrid fb (fbClear s fbBlack) (fun _ _ => none) := by
  have hplot := fbClear_plotted hfb hs fbBlack
  have hblank : ∀ x y, x < fb.width.toNat → y < fb.height.toNat →
      fb.pixelAt (fbClear s fbBlack).mem x y = 0 := by
    intro x y hx hy
    rw [hplot.color x y hx hy ⟨hx, hy⟩, packColor_black, fb.shade_zero]
  refine ⟨hplot.draws hs, ?_, fun r c gx gy hgx hgy => ?_, fun x y hx _ hy => hblank x y hx hy⟩
  · rw [hplot.statics]
    exact hsize
  · obtain ⟨hx, hy⟩ := BootFramebuffer.cell_visible (r := r) (c := c) hgx hgy
    rw [hblank _ _ hx hy, BootFramebuffer.cellShade_blank]

end Grid

/-! ## The terminal -/

section Console

variable {fb : BootFramebuffer} {s : FbConsole} {t : Terminal fb.rows fb.cols ConsoleCell}

/-- The end of `fb_console_putc`: the cursor comes back to the last row. -/
def FbConsole.scrolled (s : FbConsole) : FbConsole :=
  if s.consoleRows ≤ s.cursorRow then { s.scrollOneRow with cursorRow := s.consoleRows - 1 } else s

theorem fbConsolePutc_newline (haddress : s.fb.address ≠ 0) (fgRgb bgRgb : BitVec 32) :
    fbConsolePutc s 10 fgRgb bgRgb =
      FbConsole.scrolled { s with cursorCol := 0, cursorRow := s.cursorRow + 1 } := by
  rw [fbConsolePutc, if_neg haddress, if_pos rfl]
  rfl

theorem fbConsolePutc_glyph (haddress : s.fb.address ≠ 0) {c : Byte} (hc : c ≠ 10)
    {fgRgb bgRgb : BitVec 32} {d : FbConsole}
    (hd : s.drawGlyph s.cursorCol s.cursorRow c fgRgb bgRgb = d) :
    fbConsolePutc s c fgRgb bgRgb =
      if d.consoleCols ≤ d.cursorCol + 1 then
        FbConsole.scrolled { d with cursorCol := 0, cursorRow := d.cursorRow + 1 }
      else FbConsole.scrolled { d with cursorCol := d.cursorCol + 1 } := by
  rw [fbConsolePutc, if_neg haddress, if_neg hc, hd]
  dsimp only
  split <;> rfl

/-- A cursor on the line after `t`'s is brought back to the grid. -/
theorem ShowsGrid.newline (h : ShowsGrid fb s t.cell) (hfb : fb.Ok)
    (hcol : s.cursorCol.toNat = 0) (hrow : s.cursorRow.toNat = t.row.val + 1) :
    ShowsTerminal fb s.scrolled (t.newline none) ∧
      AgreeOff fb.address.toNat fb.limit s.mem s.scrolled.mem := by
  have hsize := h.size.2
  have hlt := t.row.isLt
  unfold FbConsole.scrolled
  by_cases hlast : t.row.val + 1 < fb.rows
  · have hnewline : t.newline none = { t with
        row := ⟨t.row.val + 1, hlast⟩
        col := ⟨0, Nat.zero_lt_of_lt t.col.isLt⟩ } := dif_pos hlast
    rw [if_neg (by rw [BitVec.le_def]; omega), hnewline]
    exact ⟨⟨h, hcol, hrow⟩, .refl _ _ _⟩
  · have hnewline : t.newline none =
        { t.scroll none with col := ⟨0, Nat.zero_lt_of_lt t.col.isLt⟩ } := dif_neg hlast
    rw [if_pos (by rw [BitVec.le_def]; omega), hnewline]
    refine ⟨⟨(h.scroll hfb).congr rfl rfl rfl rfl rfl, hcol, ?_⟩, scrollOneRow_agreeOff hfb h.draws⟩
    have hone : (1 : BitVec 32) ≤ s.consoleRows := by
      rw [BitVec.le_def, hsize]
      exact hfb.rows_pos
    show (s.consoleRows - 1).toNat = t.row
    rw [BitVec.toNat_sub_of_le hone, hsize, show (1 : BitVec 32).toNat = 1 from rfl]
    omega

/-- A cursor on the grid stays where it is. -/
theorem ShowsTerminal.scrolled (h : ShowsTerminal fb s t) : s.scrolled = s := by
  have hrow := h.cursor.2
  have hsize := h.grid.size.2
  have hlt := t.row.isLt
  rw [FbConsole.scrolled, if_neg (by rw [BitVec.le_def]; omega)]

/-- The next column or row, in 32 bits. -/
theorem toNat_succ_of_lt {w : BitVec 32} {n : Nat} (hw : w.toNat < n) (hn : n < 2 ^ 32) :
    (w + 1).toNat = w.toNat + 1 := by
  rw [BitVec.toNat_add, show (1 : BitVec 32).toNat = 1 from rfl, Nat.mod_eq_of_lt (by omega)]

/-- **One character.** -/
theorem ShowsTerminal.putc (h : ShowsTerminal fb s t) (hfb : fb.Ok) (p : Byte × BitVec 32) :
    ShowsTerminal fb (fbConsolePutc s p.1 p.2 fbBlack) (t.putc p) ∧
      AgreeOff fb.address.toNat fb.limit s.mem (fbConsolePutc s p.1 p.2 fbBlack).mem := by
  obtain ⟨c, fgRgb⟩ := p
  obtain ⟨hgrid, hcol, hrow⟩ := h
  have haddress : s.fb.address ≠ 0 := hgrid.draws.mode ▸ hfb.address
  have hcols : s.consoleCols.toNat = fb.cols := hgrid.size.1
  have hrows : s.consoleRows.toNat = fb.rows := hgrid.size.2
  have hnextRow : (s.cursorRow + 1).toNat = t.row.val + 1 := by
    rw [toNat_succ_of_lt (n := fb.rows) (by omega) (by omega), hrow]
  have hnextCol : (s.cursorCol + 1).toNat = t.col.val + 1 := by
    rw [toNat_succ_of_lt (n := fb.cols) (by omega) (by omega), hcol]
  by_cases hc : c = 10
  · -- a line feed goes to the next row, and scrolls after the last
    subst hc
    rw [fbConsolePutc_newline haddress]
    have hlines := ShowsGrid.newline (t := t)
      (s := { s with cursorCol := 0, cursorRow := s.cursorRow + 1 })
      (hgrid.congr rfl rfl rfl rfl rfl) hfb rfl hnextRow
    exact hlines
  · have hplot := drawGlyph_plotted hfb hgrid.draws s.cursorCol s.cursorRow
      (by omega) (by omega) c fgRgb fbBlack
    have hdrawn := hgrid.draw hfb hcol hrow c fgRgb
    rw [fbConsolePutc_glyph haddress hc rfl]
    generalize s.drawGlyph s.cursorCol s.cursorRow c fgRgb fbBlack = d at hplot hdrawn ⊢
    have hoff := hplot.off
    obtain ⟨mem, hd⟩ : ∃ mem, d = { s with mem } := ⟨_, hplot.statics⟩
    subst hd
    have hputc : t.putc (c, fgRgb) = t.write none (some (c, fgRgb)) := if_neg hc
    rw [hputc]
    dsimp only
    -- the cursor moves right, or wraps to the next row
    by_cases hlast : t.col.val + 1 < fb.cols
    · have hwrite : t.write none (some (c, fgRgb)) =
          { t.set (some (c, fgRgb)) with col := ⟨t.col.val + 1, hlast⟩ } := dif_pos hlast
      rw [if_neg (by rw [BitVec.le_def]; omega), hwrite]
      have hshows : ShowsTerminal fb { s with mem, cursorCol := s.cursorCol + 1 }
          { t.set (some (c, fgRgb)) with col := ⟨t.col.val + 1, hlast⟩ } :=
        ⟨hdrawn.congr rfl rfl rfl rfl rfl, hnextCol, hrow⟩
      rw [hshows.scrolled]
      exact ⟨hshows, hoff⟩
    · have hwrite : t.write none (some (c, fgRgb)) = (t.set (some (c, fgRgb))).newline none :=
        dif_neg hlast
      rw [if_pos (by rw [BitVec.le_def]; omega), hwrite]
      have hlines := ShowsGrid.newline (t := t.set (some (c, fgRgb)))
        (s := { s with mem, cursorCol := 0, cursorRow := s.cursorRow + 1 })
        (hdrawn.congr rfl rfl rfl rfl rfl) hfb rfl hnextRow
      exact ⟨hlines.1, hoff.trans hlines.2⟩

/-- `fb_init` sets the driver up. -/
theorem fbInit_draws (hfb : fb.Ok) (s : FbConsole) :
    (fbInit s (some fb)).1 = true ∧ (fbInit s (some fb)).2.Draws fb ∧
      (fbInit s (some fb)).2.consoleCols.toNat = fb.cols ∧
      (fbInit s (some fb)).2.consoleRows.toNat = fb.rows ∧
      (fbInit s (some fb)).2.cursorCol = 0 ∧ (fbInit s (some fb)).2.cursorRow = 0 ∧
      (fbInit s (some fb)).2.mem = s.mem := by
  have hwidth := hfb.width
  have hheight := hfb.height
  have hcells : ∀ {w : Word}, w.toNat < 2 ^ 32 →
      ((w / BitVec.ofNat 64 8).setWidth 32).toNat = w.toNat / 8 := by
    intro w hw
    rw [BitVec.toNat_setWidth, BitVec.toNat_udiv, BitVec.toNat_ofNat,
      Nat.mod_eq_of_lt (by omega : 8 < 2 ^ 64), Nat.mod_eq_of_lt (by omega)]
  have hbytes : ((fb.bpp / 8).setWidth 32).toNat = fb.pixelBytes := by
    rcases hfb.bpp with hbpp | hbpp | hbpp | hbpp <;> rw [BootFramebuffer.pixelBytes, hbpp] <;> rfl
  simp only [fbInit, if_neg hfb.address]
  exact ⟨trivial, ⟨rfl, hbytes⟩, hcells hwidth.2, hcells hheight.2, trivial, trivial, trivial⟩

/-- **The console is a terminal.** Set up and cleared, it shows after any text the
terminal of `console_rows` by `console_cols` cells that got the same text; its
cursor is on the grid and no byte outside the framebuffer has changed. -/
theorem fb_console_shows_terminal (hfb : fb.Ok) (s₀ : FbConsole)
    (text : List (Byte × BitVec 32)) :
    let s := text.foldl (fun s p => fbConsolePutc s p.1 p.2 fbBlack)
      (fbClear (fbInit s₀ (some fb)).2 fbBlack)
    s.cursorCol < s.consoleCols ∧ s.cursorRow < s.consoleRows ∧
      AgreeOff fb.address.toNat fb.limit s₀.mem s.mem ∧
      ShowsTerminal fb s (text.foldl Terminal.putc (.clear hfb.rows_pos hfb.cols_pos none)) := by
  obtain ⟨-, hdraws, hcols, hrows, hcol, hrow, hmem⟩ := fbInit_draws hfb s₀
  have hplot := fbClear_plotted hfb hdraws fbBlack
  have hcleared : ShowsTerminal fb (fbClear (fbInit s₀ (some fb)).2 fbBlack)
      (.clear hfb.rows_pos hfb.cols_pos none) := by
    refine ⟨.clear hfb hdraws ⟨hcols, hrows⟩, ?_⟩
    rw [hplot.statics]
    show (fbInit s₀ (some fb)).2.cursorCol.toNat = 0 ∧ (fbInit s₀ (some fb)).2.cursorRow.toNat = 0
    rw [hcol, hrow]
    exact ⟨rfl, rfl⟩
  have hoff : AgreeOff fb.address.toNat fb.limit s₀.mem
      (fbClear (fbInit s₀ (some fb)).2 fbBlack).mem := hmem ▸ hplot.off
  intro s
  have hrun : AgreeOff fb.address.toNat fb.limit s₀.mem s.mem ∧
      ShowsTerminal fb s (text.foldl Terminal.putc (.clear hfb.rows_pos hfb.cols_pos none)) := by
    unfold s
    clear hplot
    generalize fbClear (fbInit s₀ (some fb)).2 fbBlack = s₁ at hcleared hoff ⊢
    generalize Terminal.clear hfb.rows_pos hfb.cols_pos none = t at hcleared ⊢
    induction text generalizing s₁ t with
    | nil => exact ⟨hoff, hcleared⟩
    | cons p text ih =>
        obtain ⟨hshows, hputc⟩ := hcleared.putc hfb p
        exact ih _ (hoff.trans hputc) _ hshows
  obtain ⟨hoff, hshows⟩ := hrun
  refine ⟨?_, ?_, hoff, hshows⟩
  · rw [BitVec.lt_def, hshows.cursor.1, hshows.grid.size.1]
    exact Fin.isLt _
  · rw [BitVec.lt_def, hshows.cursor.2, hshows.grid.size.2]
    exact Fin.isLt _

end Console

/-- 16 by 20 pixels of 32 bits, two of padding in a row: two by two cells over a
strip of four pixel rows. -/
def smallFramebuffer : BootFramebuffer where
  address := 0x1000
  width := 16
  height := 20
  pitch := 72
  bpp := 32
  redMaskSize := 8
  redMaskShift := 16
  greenMaskSize := 8
  greenMaskShift := 8
  blueMaskSize := 8
  blueMaskShift := 0

theorem smallFramebuffer_ok : smallFramebuffer.Ok :=
  ⟨by decide, by decide, by decide, by decide, by decide, by decide⟩

/-- The statics as they start, over memory that is not blank. -/
def bootFbConsole : FbConsole where
  fb := ⟨0, 0, 0, 0, 0, 0, 0, 0, 0, 0, 0⟩
  fbReady := false
  bytesPerPixel := 0
  consoleCols := 0
  consoleRows := 0
  cursorCol := 0
  cursorRow := 0
  mem := fun _ => 0xff

/-- A character on the second row that a line feed has scrolled to the first. -/
theorem fb_console_shows_terminal_scrolled :
    let s := [(10, 0), (0x41, 0xffffff), (10, 0)].foldl
      (fun s p => fbConsolePutc s p.1 p.2 fbBlack)
      (fbClear (fbInit bootFbConsole (some smallFramebuffer)).2 fbBlack)
    smallFramebuffer.pixelAt s.mem 2 0 = 0xffffff ∧ smallFramebuffer.pixelAt s.mem 0 17 = 0 ∧
      s.mem 0xfff = 0xff := by
  intro s
  obtain ⟨-, -, hoff, hshows⟩ := fb_console_shows_terminal smallFramebuffer_ok bootFbConsole
    [(10, 0), (0x41, 0xffffff), (10, 0)]
  refine ⟨?_, hshows.grid.strip 0 17 (by decide) (by decide) (by decide), ?_⟩
  · have hcell := hshows.grid.cells ⟨0, by decide⟩ ⟨0, by decide⟩ 2 0 (by decide) (by decide)
    exact hcell.trans (by decide +kernel)
  · exact hoff 0xfff (.inl (by decide))

end QuinKernel
