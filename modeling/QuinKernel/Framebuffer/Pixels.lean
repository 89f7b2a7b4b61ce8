import QuinKernel.Framebuffer.Model

/-!
# Pixels

`pixelAt` reads the colour of a pixel back from memory. `Plotted` is what a
drawing loop does to the visible pixels: those of a set `S` get the colours `f`
says, every other one keeps its own, and no byte outside the framebuffer
changes. One pixel is plotted by `put_pixel_raw` (`putPixelRaw_plotted`); a
counting loop plots the union of what its iterations plot (`loop_plotted`), so
the nested loops of `fb_clear` and `draw_glyph` plot rectangles.
-/

namespace QuinKernel

open Machine

namespace BootFramebuffer

variable (fb : BootFramebuffer)

/-- The bytes of one pixel. -/
def pixelBytes : Nat := fb.bpp.toNat / 8

/-- The address past the last pixel row. -/
def limit : Nat := fb.address.toNat + fb.height.toNat * fb.pitch.toNat

/-- The address of a pixel. -/
def pixelAddr (x y : Nat) : Nat := fb.address.toNat + y * fb.pitch.toNat + x * fb.pixelBytes

/-- The colour of a pixel. -/
def pixelAt (m : Mem) (x y : Nat) : Nat := loadNat m (fb.pixelAddr x y) fb.pixelBytes

/-- What a pixel of a native colour holds. -/
def shade (native : BitVec 32) : Nat := native.toNat % 256 ^ fb.pixelBytes

/-- A framebuffer as the bootloader reports it: at least one cell in size, its
pixels of whole bytes, its rows in the pitch and all of them in memory. -/
structure Ok : Prop where
  address : fb.address ≠ 0
  width : 8 ≤ fb.width.toNat ∧ fb.width.toNat < 2 ^ 32
  height : 8 ≤ fb.height.toNat ∧ fb.height.toNat < 2 ^ 32
  bpp : fb.bpp = 8 ∨ fb.bpp = 16 ∨ fb.bpp = 24 ∨ fb.bpp = 32
  pitch : fb.width.toNat * fb.pixelBytes ≤ fb.pitch.toNat
  fits : fb.limit ≤ 2 ^ 64

end BootFramebuffer

/-- The driver is set up for `fb`. -/
structure FbConsole.Draws (s : FbConsole) (fb : BootFramebuffer) : Prop where
  mode : s.fb = fb
  bytes : s.bytesPerPixel.toNat = fb.pixelBytes

/-- The visible pixels in `S` have the colours `f`, the others are as before, and
so are all other bytes and the statics. -/
structure Plotted (fb : BootFramebuffer) (S : Nat → Nat → Prop) (f : Nat → Nat → Nat)
    (s s' : FbConsole) : Prop where
  statics : s' = { s with mem := s'.mem }
  color : ∀ x y, x < fb.width.toNat → y < fb.height.toNat → S x y → fb.pixelAt s'.mem x y = f x y
  keep : ∀ x y, x < fb.width.toNat → y < fb.height.toNat → ¬ S x y →
    fb.pixelAt s'.mem x y = fb.pixelAt s.mem x y
  off : AgreeOff fb.address.toNat fb.limit s.mem s'.mem

/-! ## Where pixels lie -/

section Geometry

variable {fb : BootFramebuffer} {x y x' y' : Nat}

theorem BootFramebuffer.Ok.pixelBytes_pos (h : fb.Ok) : 0 < fb.pixelBytes := by
  rcases h.bpp with hbpp | hbpp | hbpp | hbpp <;> rw [BootFramebuffer.pixelBytes, hbpp] <;> decide

/-- A pixel lies in its row. -/
theorem BootFramebuffer.Ok.pixel_le (h : fb.Ok) (hx : x < fb.width.toNat) :
    fb.pixelAddr x y + fb.pixelBytes ≤ fb.address.toNat + (y + 1) * fb.pitch.toNat := by
  have hrow : (x + 1) * fb.pixelBytes ≤ fb.pitch.toNat :=
    (Nat.mul_le_mul_right _ hx).trans h.pitch
  rw [Nat.succ_mul] at hrow ⊢
  unfold BootFramebuffer.pixelAddr
  omega

theorem BootFramebuffer.row_le_limit (hy : y < fb.height.toNat) :
    fb.address.toNat + (y + 1) * fb.pitch.toNat ≤ fb.limit := by
  have hrows : (y + 1) * fb.pitch.toNat ≤ fb.height.toNat * fb.pitch.toNat :=
    Nat.mul_le_mul_right _ hy
  unfold BootFramebuffer.limit
  omega

theorem BootFramebuffer.Ok.pixel_le_limit (h : fb.Ok) (hx : x < fb.width.toNat)
    (hy : y < fb.height.toNat) : fb.pixelAddr x y + fb.pixelBytes ≤ fb.limit :=
  (h.pixel_le hx).trans (BootFramebuffer.row_le_limit hy)

/-- Rows do not overlap. -/
theorem BootFramebuffer.Ok.apart_rows (h : fb.Ok) (hx : x < fb.width.toNat) (hy : y < y') :
    fb.pixelAddr x y + fb.pixelBytes ≤ fb.pixelAddr x' y' := by
  have hrow := h.pixel_le (y := y) hx
  have hrows : (y + 1) * fb.pitch.toNat ≤ y' * fb.pitch.toNat := Nat.mul_le_mul_right _ hy
  unfold BootFramebuffer.pixelAddr at hrow ⊢
  omega

/-- Two pixels do not overlap. -/
theorem BootFramebuffer.Ok.pixels_apart (h : fb.Ok) (hx : x < fb.width.toNat)
    (hx' : x' < fb.width.toNat) (hne : ¬ (x' = x ∧ y' = y)) :
    fb.pixelAddr x y + fb.pixelBytes ≤ fb.pixelAddr x' y' ∨
      fb.pixelAddr x' y' + fb.pixelBytes ≤ fb.pixelAddr x y := by
  rcases Nat.lt_trichotomy y y' with hy | rfl | hy
  · exact .inl (h.apart_rows hx hy)
  · have hcols : ∀ {x x'}, x < x' →
        fb.pixelAddr x y + fb.pixelBytes ≤ fb.pixelAddr x' y := by
      intro x x' hlt
      have hpixel : (x + 1) * fb.pixelBytes ≤ x' * fb.pixelBytes := Nat.mul_le_mul_right _ hlt
      rw [Nat.succ_mul] at hpixel
      unfold BootFramebuffer.pixelAddr
      omega
    rcases Nat.lt_or_gt_of_ne (fun heq => hne ⟨heq, rfl⟩ : x' ≠ x) with hlt | hlt
    · exact .inr (hcols hlt)
    · exact .inl (hcols hlt)
  · exact .inr (h.apart_rows hx' hy)

/-- `put_pixel_raw` computes the address of its pixel. -/
theorem BootFramebuffer.Ok.pixel_pointer (h : fb.Ok) {bytes : BitVec 32}
    (hbytes : bytes.toNat = fb.pixelBytes) {x y : BitVec 32} (hx : x.toNat < fb.width.toNat)
    (hy : y.toNat < fb.height.toNat) :
    (fb.address + y.setWidth 64 * fb.pitch + x.setWidth 64 * bytes.setWidth 64).toNat =
      fb.pixelAddr x.toNat y.toNat := by
  have hend := (h.pixel_le_limit hx hy).trans h.fits
  have hpos := h.pixelBytes_pos
  have hwide : ∀ w : BitVec 32, (w.setWidth 64).toNat = w.toNat := fun w =>
    BitVec.toNat_setWidth_of_le (by omega)
  unfold BootFramebuffer.pixelAddr at hend ⊢
  have hrow : (y.setWidth 64 * fb.pitch).toNat = y.toNat * fb.pitch.toNat := by
    rw [BitVec.toNat_mul, hwide, Nat.mod_eq_of_lt (by omega)]
  have hcol : (x.setWidth 64 * bytes.setWidth 64).toNat = x.toNat * fb.pixelBytes := by
    rw [BitVec.toNat_mul, hwide, hwide, hbytes, Nat.mod_eq_of_lt (by omega)]
  rw [BitVec.toNat_add, BitVec.toNat_add, hrow, hcol, Nat.mod_eq_of_lt (a := _ + _ * _) (by omega),
    Nat.mod_eq_of_lt (by omega)]

end Geometry

/-! ## One pixel -/

/-- The loop of `put_pixel_raw` writes the colour, lowest byte first. -/
theorem putPixelBytes_eq {m : Mem} {pixel : Word} {native : BitVec 32} {n : Nat}
    (hfit : pixel.toNat + n ≤ 2 ^ 64) :
    putPixelBytes m pixel native n = storeNat m pixel.toNat n native.toNat := by
  induction n with
  | zero =>
      funext x
      simp only [putPixelBytes, storeNat]
      rw [if_neg (by omega)]
  | succ n ih =>
      have haddr : (pixel + BitVec.ofNat 64 n).toNat = pixel.toNat + n := by
        rw [BitVec.toNat_add, BitVec.toNat_ofNat, Nat.mod_eq_of_lt (by omega : n < 2 ^ 64),
          Nat.mod_eq_of_lt (by omega)]
      have hbyte : (native >>> (8 * n)).setWidth 8 = BitVec.ofNat 8 (native.toNat / 256 ^ n) := by
        apply BitVec.eq_of_toNat_eq
        rw [BitVec.toNat_setWidth, BitVec.toNat_ushiftRight, Nat.shiftRight_eq_div_pow, pow_mul,
          BitVec.toNat_ofNat, show (2 : Nat) ^ 8 = 256 from rfl]
      funext x
      rw [putPixelBytes, ih (by omega), haddr, hbyte]
      by_cases hx : x = pixel.toNat + n
      · subst hx
        rw [store8_self, storeNat, if_pos (by omega), Nat.add_sub_cancel_left]
      · rw [store8_other _ _ hx]
        simp only [storeNat]
        congr 1
        simp only [eq_iff_iff]
        omega

section Plot

variable {fb : BootFramebuffer} {S U V : Nat → Nat → Prop} {f : Nat → Nat → Nat}
  {s s₁ s' : FbConsole}

theorem Plotted.draws (h : Plotted fb S f s s') (hs : s.Draws fb) : s'.Draws fb := by
  rw [h.statics]
  exact ⟨hs.mode, hs.bytes⟩

theorem Plotted.refl (hS : ∀ x y, ¬ S x y) : Plotted fb S f s s :=
  ⟨rfl, fun x y _ _ h => absurd h (hS x y), fun _ _ _ _ _ => rfl, .refl _ _ _⟩

/-- Two plots in a row. -/
theorem Plotted.seq (h : Plotted fb S f s s₁) (h' : Plotted fb U f s₁ s')
    (hV : ∀ x y, V x y ↔ S x y ∨ U x y) : Plotted fb V f s s' := by
  refine ⟨?_, fun x y hx hy hv => ?_, fun x y hx hy hv => ?_, h.off.trans h'.off⟩
  · rw [h'.statics, h.statics]
  · by_cases hu : U x y
    · exact h'.color x y hx hy hu
    · rw [h'.keep x y hx hy hu]
      exact h.color x y hx hy (((hV x y).mp hv).resolve_right hu)
  · have hneither := not_or.mp ((not_congr (hV x y)).mp hv)
    rw [h'.keep x y hx hy hneither.2, h.keep x y hx hy hneither.1]

/-- **`put_pixel_raw`** plots its pixel. -/
theorem putPixelRaw_plotted (hfb : fb.Ok) (hs : s.Draws fb) (x y native : BitVec 32)
    (hx : x.toNat < fb.width.toNat) (hy : y.toNat < fb.height.toNat)
    (hf : f x.toNat y.toNat = fb.shade native) :
    Plotted fb (fun x' y' => x' = x.toNat ∧ y' = y.toNat) f s (s.putPixelRaw x y native) := by
  have hend := hfb.pixel_le_limit hx hy
  have hfits := hfb.fits
  have hmem : (s.putPixelRaw x y native).mem =
      storeNat s.mem (fb.pixelAddr x.toNat y.toNat) fb.pixelBytes native.toNat := by
    have hpointer := hfb.pixel_pointer hs.bytes hx hy
    simp only [FbConsole.putPixelRaw, hs.mode, hs.bytes]
    rw [putPixelBytes_eq (by rw [hpointer]; omega), hpointer]
  refine ⟨rfl, ?_, fun x' y' hx' hy' hne => ?_, ?_⟩
  · rintro x' y' - - ⟨rfl, rfl⟩
    rw [hmem, BootFramebuffer.pixelAt, loadNat_storeNat, hf, BootFramebuffer.shade]
  · rw [hmem]
    refine loadNat_congr _ _ (fun a hlo hhi => storeNat_agreeOff _ _ _ _ a ?_)
    have hapart := hfb.pixels_apart hx hx' hne
    omega
  · rw [hmem]
    refine (storeNat_agreeOff s.mem _ _ _).mono ?_ hend
    unfold BootFramebuffer.pixelAddr
    omega

/-- **A counting loop** plots what its iterations plot. -/
theorem loop_plotted (hs : s.Draws fb) {body : Nat → FbConsole → FbConsole} {n : Nat}
    {T : Nat → Nat → Nat → Prop}
    (hbody : ∀ i, i < n → ∀ s : FbConsole, s.Draws fb → Plotted fb (T i) f s (body i s)) :
    Plotted fb (fun x y => ∃ i, i < n ∧ T i x y) f s (countingLoop body s n) := by
  induction n with
  | zero => exact .refl (fun x y ⟨i, hi, _⟩ => Nat.not_lt_zero i hi)
  | succ n ih =>
      have hprev := ih (fun i hi => hbody i (by omega))
      refine hprev.seq (hbody n (Nat.lt_succ_self n) _ (hprev.draws hs)) (fun x y => ?_)
      constructor
      · rintro ⟨i, hi, hT⟩
        rcases Nat.lt_succ_iff_lt_or_eq.mp hi with hlt | rfl
        · exact .inl ⟨i, hlt, hT⟩
        · exact .inr hT
      · rintro (⟨i, hi, hT⟩ | hT)
        · exact ⟨i, by omega, hT⟩
        · exact ⟨n, Nat.lt_succ_self n, hT⟩

end Plot

end QuinKernel
