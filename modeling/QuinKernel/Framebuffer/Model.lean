import QuinKernel.Lib.String
import QuinKernel.Framebuffer.Font

/-!
# The framebuffer console (`framebuffer.c`)

The statics of the driver, and the memory it draws in. Addresses are computed
in 64 bits as in the source. The loops over rows and columns count in 32 bits;
they are modelled for fewer than `2 ^ 32` of either. A colour shift of 32 or
more, undefined in C, leaves nothing.
-/

namespace QuinKernel

open Machine

/-- `struct boot_framebuffer`. -/
structure BootFramebuffer where
  address : Word
  width : Word
  height : Word
  pitch : Word
  bpp : BitVec 16
  redMaskSize : Byte
  redMaskShift : Byte
  greenMaskSize : Byte
  greenMaskShift : Byte
  blueMaskSize : Byte
  blueMaskShift : Byte

/-- `CELL_W`. -/
def cellW : Nat := 8

/-- `CELL_H`. -/
def cellH : Nat := 8

/-- `FB_BLACK`. -/
def fbBlack : BitVec 32 := 0

/-- The statics of `framebuffer.c`, and memory. -/
structure FbConsole where
  fb : BootFramebuffer
  fbReady : Bool
  bytesPerPixel : BitVec 32
  consoleCols : BitVec 32
  consoleRows : BitVec 32
  cursorCol : BitVec 32
  cursorRow : BitVec 32
  mem : Mem

/-- `fb_init`; `none` is a null `info`. -/
def fbInit (s : FbConsole) (info : Option BootFramebuffer) : Bool × FbConsole :=
  match info with
  | none => (false, s)
  | some info =>
      if info.address = 0 then (false, s)
      else (true, { s with
        fb := info
        bytesPerPixel := (info.bpp / 8).setWidth 32
        consoleCols := (info.width / BitVec.ofNat 64 cellW).setWidth 32
        consoleRows := (info.height / BitVec.ofNat 64 cellH).setWidth 32
        cursorCol := 0
        cursorRow := 0
        fbReady := true })

/-- A colour component at the width and place the mode gives it. -/
def packComponent (c : Byte) (size shift : Byte) : BitVec 32 :=
  (if size.toNat < 8 then c >>> (8 - size.toNat) else c).setWidth 32 <<< shift.toNat

/-- `pack_color`. -/
def packColor (fb : BootFramebuffer) (rgb : BitVec 32) : BitVec 32 :=
  packComponent ((rgb >>> 16).setWidth 8) fb.redMaskSize fb.redMaskShift |||
    packComponent ((rgb >>> 8).setWidth 8) fb.greenMaskSize fb.greenMaskShift |||
    packComponent (rgb.setWidth 8) fb.blueMaskSize fb.blueMaskShift

/-- The loop of `put_pixel_raw` after `n` iterations. -/
def putPixelBytes (m : Mem) (pixel : Word) (native : BitVec 32) : Nat → Mem
  | 0 => m
  | n + 1 =>
      store8 (putPixelBytes m pixel native n) (pixel + BitVec.ofNat 64 n).toNat
        ((native >>> (8 * n)).setWidth 8)

/-- A counting loop from 0, after `n` iterations. -/
def countingLoop {σ : Type} (body : Nat → σ → σ) (s : σ) : Nat → σ
  | 0 => s
  | n + 1 => body n (countingLoop body s n)

namespace FbConsole

/-- `put_pixel_raw`. -/
def putPixelRaw (s : FbConsole) (x y : BitVec 32) (native : BitVec 32) : FbConsole :=
  let row := s.fb.address + y.setWidth 64 * s.fb.pitch
  let pixel := row + x.setWidth 64 * s.bytesPerPixel.setWidth 64
  { s with mem := putPixelBytes s.mem pixel native s.bytesPerPixel.toNat }

/-- `draw_glyph`. -/
def drawGlyph (s : FbConsole) (col row : BitVec 32) (c : Byte) (fgRgb bgRgb : BitVec 32) :
    FbConsole :=
  let fg := packColor s.fb fgRgb
  let bg := packColor s.fb bgRgb
  let glyph := font8x8Basic.getD (c &&& 0x7f).toNat []
  let originX := col * BitVec.ofNat 32 cellW
  let originY := row * BitVec.ofNat 32 cellH
  countingLoop (fun gy => fun s =>
    let bits := glyph.getD gy 0
    countingLoop (fun gx => fun s =>
      s.putPixelRaw (originX + BitVec.ofNat 32 gx) (originY + BitVec.ofNat 32 gy)
        (if bits.getLsbD gx then fg else bg)) s cellW) s cellH

/-- `scroll_one_row`. -/
def scrollOneRow (s : FbConsole) : FbConsole :=
  let rowBytes := BitVec.ofNat 64 cellH * s.fb.pitch
  let base := s.fb.address
  let remainingBytes := (s.fb.height - BitVec.ofNat 64 cellH) * s.fb.pitch
  let mem := memmove s.mem base.toNat (base + rowBytes).toNat remainingBytes.toNat
  { s with mem := memset mem (base + remainingBytes).toNat 0 rowBytes.toNat }

end FbConsole

/-- `fb_clear`. -/
def fbClear (s : FbConsole) (colorRgb : BitVec 32) : FbConsole :=
  let native := packColor s.fb colorRgb
  countingLoop (fun y => fun s =>
    countingLoop (fun x => fun s => s.putPixelRaw (BitVec.ofNat 32 x) (BitVec.ofNat 32 y) native)
      s s.fb.width.toNat) s s.fb.height.toNat

/-- `fb_console_putc`; 10 is `'\n'`. -/
def fbConsolePutc (s : FbConsole) (c : Byte) (fgRgb bgRgb : BitVec 32) : FbConsole :=
  if s.fb.address = 0 then s
  else
    let s :=
      if c = 10 then { s with cursorCol := 0, cursorRow := s.cursorRow + 1 }
      else
        let s := s.drawGlyph s.cursorCol s.cursorRow c fgRgb bgRgb
        let s := { s with cursorCol := s.cursorCol + 1 }
        if s.consoleCols ≤ s.cursorCol then
          { s with cursorCol := 0, cursorRow := s.cursorRow + 1 }
        else s
    if s.consoleRows ≤ s.cursorRow then
      let s := s.scrollOneRow
      { s with cursorRow := s.consoleRows - 1 }
    else s

end QuinKernel
