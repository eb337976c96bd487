import Vlsmc.ByteMemory
import Vlsmc.Words

/-!
# The console

`putchar` of `libc.cpp` with its three displays: the text buffer, the graphics mode of `vga.cpp`
and the framebuffer of `bga.cpp`. A character is its byte.
-/

set_option autoImplicit false

namespace Vlsmc.ConsoleOutput
open Vlsmc.ByteMemory Vlsmc.Words

section Font

/-- The glyphs of `font8x8` from the blank on; those before it and after these are empty. -/
def glyphs : List (List ℕ) :=
  [[0x00, 0x00, 0x00, 0x00, 0x00, 0x00, 0x00, 0x00], [0x18, 0x18, 0x18, 0x18, 0x18, 0x00, 0x18, 0x00],
   [0x6C, 0x6C, 0x24, 0x00, 0x00, 0x00, 0x00, 0x00], [0x6C, 0x6C, 0xFE, 0x6C, 0xFE, 0x6C, 0x6C, 0x00],
   [0x18, 0x3E, 0x60, 0x3C, 0x06, 0x7C, 0x18, 0x00], [0x62, 0x66, 0x0C, 0x18, 0x30, 0x66, 0x46, 0x00],
   [0x3C, 0x66, 0x3C, 0x38, 0x67, 0x66, 0x3F, 0x00], [0x18, 0x18, 0x30, 0x00, 0x00, 0x00, 0x00, 0x00],
   [0x0C, 0x18, 0x30, 0x30, 0x30, 0x18, 0x0C, 0x00], [0x30, 0x18, 0x0C, 0x0C, 0x0C, 0x18, 0x30, 0x00],
   [0x00, 0x66, 0x3C, 0xFF, 0x3C, 0x66, 0x00, 0x00], [0x00, 0x18, 0x18, 0x7E, 0x18, 0x18, 0x00, 0x00],
   [0x00, 0x00, 0x00, 0x00, 0x00, 0x18, 0x18, 0x30], [0x00, 0x00, 0x00, 0x7E, 0x00, 0x00, 0x00, 0x00],
   [0x00, 0x00, 0x00, 0x00, 0x00, 0x18, 0x18, 0x00], [0x02, 0x06, 0x0C, 0x18, 0x30, 0x60, 0x40, 0x00],
   [0x3C, 0x66, 0x6E, 0x76, 0x66, 0x66, 0x3C, 0x00], [0x18, 0x38, 0x18, 0x18, 0x18, 0x18, 0x7E, 0x00],
   [0x3C, 0x66, 0x06, 0x0C, 0x18, 0x30, 0x7E, 0x00], [0x3C, 0x66, 0x06, 0x1C, 0x06, 0x66, 0x3C, 0x00],
   [0x0C, 0x1C, 0x3C, 0x6C, 0x7E, 0x0C, 0x0C, 0x00], [0x7E, 0x60, 0x7C, 0x06, 0x06, 0x66, 0x3C, 0x00],
   [0x1C, 0x30, 0x60, 0x7C, 0x66, 0x66, 0x3C, 0x00], [0x7E, 0x06, 0x0C, 0x18, 0x30, 0x30, 0x30, 0x00],
   [0x3C, 0x66, 0x66, 0x3C, 0x66, 0x66, 0x3C, 0x00], [0x3C, 0x66, 0x66, 0x3E, 0x06, 0x0C, 0x38, 0x00],
   [0x00, 0x18, 0x18, 0x00, 0x18, 0x18, 0x00, 0x00], [0x00, 0x18, 0x18, 0x00, 0x18, 0x18, 0x30, 0x00],
   [0x06, 0x0C, 0x18, 0x30, 0x18, 0x0C, 0x06, 0x00], [0x00, 0x00, 0x7E, 0x00, 0x7E, 0x00, 0x00, 0x00],
   [0x60, 0x30, 0x18, 0x0C, 0x18, 0x30, 0x60, 0x00], [0x3C, 0x66, 0x06, 0x0C, 0x18, 0x00, 0x18, 0x00],
   [0x3C, 0x66, 0x6E, 0x6A, 0x6E, 0x60, 0x3E, 0x00], [0x18, 0x3C, 0x66, 0x66, 0x7E, 0x66, 0x66, 0x00],
   [0x7C, 0x66, 0x66, 0x7C, 0x66, 0x66, 0x7C, 0x00], [0x3C, 0x66, 0x60, 0x60, 0x60, 0x66, 0x3C, 0x00],
   [0x78, 0x6C, 0x66, 0x66, 0x66, 0x6C, 0x78, 0x00], [0x7E, 0x60, 0x60, 0x7C, 0x60, 0x60, 0x7E, 0x00],
   [0x7E, 0x60, 0x60, 0x7C, 0x60, 0x60, 0x60, 0x00], [0x3E, 0x60, 0x60, 0x6E, 0x66, 0x66, 0x3E, 0x00],
   [0x66, 0x66, 0x66, 0x7E, 0x66, 0x66, 0x66, 0x00], [0x3C, 0x18, 0x18, 0x18, 0x18, 0x18, 0x3C, 0x00],
   [0x06, 0x06, 0x06, 0x06, 0x06, 0x66, 0x3C, 0x00], [0x66, 0x6C, 0x78, 0x70, 0x78, 0x6C, 0x66, 0x00],
   [0x60, 0x60, 0x60, 0x60, 0x60, 0x60, 0x7E, 0x00], [0x63, 0x77, 0x7F, 0x6B, 0x63, 0x63, 0x63, 0x00],
   [0x66, 0x76, 0x7E, 0x7E, 0x6E, 0x66, 0x66, 0x00], [0x3C, 0x66, 0x66, 0x66, 0x66, 0x66, 0x3C, 0x00],
   [0x7C, 0x66, 0x66, 0x7C, 0x60, 0x60, 0x60, 0x00], [0x3C, 0x66, 0x66, 0x66, 0x6A, 0x6C, 0x36, 0x00],
   [0x7C, 0x66, 0x66, 0x7C, 0x6C, 0x66, 0x66, 0x00], [0x3C, 0x66, 0x60, 0x3C, 0x06, 0x66, 0x3C, 0x00],
   [0x7E, 0x18, 0x18, 0x18, 0x18, 0x18, 0x18, 0x00], [0x66, 0x66, 0x66, 0x66, 0x66, 0x66, 0x3C, 0x00],
   [0x66, 0x66, 0x66, 0x66, 0x66, 0x3C, 0x18, 0x00], [0x63, 0x63, 0x63, 0x6B, 0x7F, 0x77, 0x63, 0x00],
   [0x66, 0x66, 0x3C, 0x18, 0x3C, 0x66, 0x66, 0x00], [0x66, 0x66, 0x66, 0x3C, 0x18, 0x18, 0x18, 0x00],
   [0x7E, 0x06, 0x0C, 0x18, 0x30, 0x60, 0x7E, 0x00], [0x3C, 0x30, 0x30, 0x30, 0x30, 0x30, 0x3C, 0x00],
   [0x40, 0x60, 0x30, 0x18, 0x0C, 0x06, 0x02, 0x00], [0x3C, 0x0C, 0x0C, 0x0C, 0x0C, 0x0C, 0x3C, 0x00],
   [0x18, 0x3C, 0x66, 0x00, 0x00, 0x00, 0x00, 0x00], [0x00, 0x00, 0x00, 0x00, 0x00, 0x00, 0x00, 0xFF],
   [0x30, 0x18, 0x0C, 0x00, 0x00, 0x00, 0x00, 0x00], [0x00, 0x00, 0x3C, 0x06, 0x3E, 0x66, 0x3E, 0x00],
   [0x60, 0x60, 0x7C, 0x66, 0x66, 0x66, 0x7C, 0x00], [0x00, 0x00, 0x3C, 0x66, 0x60, 0x66, 0x3C, 0x00],
   [0x06, 0x06, 0x3E, 0x66, 0x66, 0x66, 0x3E, 0x00], [0x00, 0x00, 0x3C, 0x66, 0x7E, 0x60, 0x3C, 0x00],
   [0x1C, 0x30, 0x7C, 0x30, 0x30, 0x30, 0x30, 0x00], [0x00, 0x00, 0x3E, 0x66, 0x66, 0x3E, 0x06, 0x3C],
   [0x60, 0x60, 0x7C, 0x66, 0x66, 0x66, 0x66, 0x00], [0x18, 0x00, 0x38, 0x18, 0x18, 0x18, 0x3C, 0x00],
   [0x0C, 0x00, 0x1C, 0x0C, 0x0C, 0x0C, 0x0C, 0x38], [0x60, 0x60, 0x66, 0x6C, 0x78, 0x6C, 0x66, 0x00],
   [0x38, 0x18, 0x18, 0x18, 0x18, 0x18, 0x3C, 0x00], [0x00, 0x00, 0x66, 0x7F, 0x6B, 0x63, 0x63, 0x00],
   [0x00, 0x00, 0x7C, 0x66, 0x66, 0x66, 0x66, 0x00], [0x00, 0x00, 0x3C, 0x66, 0x66, 0x66, 0x3C, 0x00],
   [0x00, 0x00, 0x7C, 0x66, 0x66, 0x7C, 0x60, 0x60], [0x00, 0x00, 0x3E, 0x66, 0x66, 0x3E, 0x06, 0x06],
   [0x00, 0x00, 0x7C, 0x66, 0x60, 0x60, 0x60, 0x00], [0x00, 0x00, 0x3E, 0x60, 0x3C, 0x06, 0x7C, 0x00],
   [0x30, 0x30, 0x7C, 0x30, 0x30, 0x30, 0x1C, 0x00], [0x00, 0x00, 0x66, 0x66, 0x66, 0x66, 0x3E, 0x00],
   [0x00, 0x00, 0x66, 0x66, 0x66, 0x3C, 0x18, 0x00], [0x00, 0x00, 0x63, 0x6B, 0x7F, 0x7F, 0x36, 0x00],
   [0x00, 0x00, 0x66, 0x3C, 0x18, 0x3C, 0x66, 0x00], [0x00, 0x00, 0x66, 0x66, 0x66, 0x3E, 0x06, 0x3C],
   [0x00, 0x00, 0x7E, 0x0C, 0x18, 0x30, 0x7E, 0x00], [0x0E, 0x18, 0x18, 0x70, 0x18, 0x18, 0x0E, 0x00],
   [0x18, 0x18, 0x18, 0x18, 0x18, 0x18, 0x18, 0x00], [0x70, 0x18, 0x18, 0x0E, 0x18, 0x18, 0x70, 0x00],
   [0x00, 0x00, 0x32, 0x7F, 0x4C, 0x00, 0x00, 0x00]]

def font8x8 (idx : ℕ) : List ℕ := (List.replicate 32 []++glyphs).getD idx []

/-- The rows of the glyph that `draw_char` draws for a character. -/
def glyph (c : ℕ) : List ℕ := font8x8 (if 128 ≤ c then 63 else c)

def glyphBit (c row col : ℕ) : Prop := (glyph c).getD row 0 &&& (0x80 >>> col) ≠ 0

instance (c row col : ℕ) : Decidable (glyphBit c row col) := instDecidableNot

end Font

section Bga

structure Bga where
  initialized : Bool
  width : ℕ
  height : ℕ
  bpp : ℕ
  pitch : ℕ

def framebufferVirt : ℕ := 0x00400000

namespace Bga

def putPixel (b : Bga) (x y color : ℕ) (m : Memory) : Memory :=
  if b.width ≤ x ∨ b.height ≤ y then m
  else
    let p := framebufferVirt+u32 (y*b.pitch+x*(b.bpp/8))
    if b.bpp = 32 then write32 m p color
    else if b.bpp = 24 then
      let m := write8 (write8 m p (UInt8.ofNat color)) (p+1) (UInt8.ofNat (color/256))
      write8 m (p+2) (UInt8.ofNat (color/65536))
    else if b.bpp = 16 then write16 m p color
    else m

/-- The rows from `y` on, `n` of them, pixel by pixel. -/
def fillRows (b : Bga) (y n color : ℕ) (m : Memory) : Memory :=
  (List.range n).foldl (fun m i =>
    (List.range b.width).foldl (fun m x => b.putPixel x (y+i) color m) m) m

/-- The 32-bit pixels from index `i` on, `n` of them. -/
def fillPixels (i n color : ℕ) (m : Memory) : Memory :=
  (List.range n).foldl (fun m k => write32 m (framebufferVirt+4*(i+k)) color) m

def clearScreen (b : Bga) (color : ℕ) (m : Memory) : Memory :=
  if b.bpp = 32 then fillPixels 0 (u32 (b.pitch*b.height)/4) color m
  else b.fillRows 0 b.height color m

def drawChar (b : Bga) (x y c fg bg : ℕ) (m : Memory) : Memory :=
  (List.range 8).foldl (fun m row => (List.range 8).foldl (fun m col =>
    b.putPixel (x+col) (y+row) (if glyphBit c row col then fg else bg) m) m) m

def scroll (b : Bga) (lines bg : ℕ) (m : Memory) : Memory :=
  if b.initialized = false then m
  else
    let pixels := u32 (lines*8)
    if b.height ≤ pixels then b.clearScreen bg m
    else
      let bytes := u32 ((b.height-pixels)*b.pitch)
      let m := copy m framebufferVirt (framebufferVirt+u32 (pixels*b.pitch)) bytes
      if b.bpp = 32 then fillPixels (bytes/4) (u32 (b.height*b.pitch)/4-bytes/4) bg m
      else b.fillRows (b.height-pixels) pixels bg m

end Bga

end Bga

section Vga

def vgaFbaddr : ℕ := 0xA0000

namespace Vga

def putPixel (x y : ℤ) (color : ℕ) (m : Memory) : Memory :=
  if 0 ≤ x ∧ x < 320 ∧ 0 ≤ y ∧ y < 200 then
    write8 m (vgaFbaddr+(y*320+x).toNat) (UInt8.ofNat color)
  else m

def clear (color : ℕ) (m : Memory) : Memory :=
  (List.range (320*200)).foldl (fun m i => write8 m (vgaFbaddr+i) (UInt8.ofNat color)) m

def drawChar (x y : ℤ) (c fg bg : ℕ) (m : Memory) : Memory :=
  (List.range 8).foldl (fun m (row : ℕ) => (List.range 8).foldl (fun m (col : ℕ) =>
    putPixel (x+col) (y+row) (if glyphBit c row col then fg else bg) m) m) m

end Vga

end Vga

section Text

/-- The address of a cell of `vga_buffer`. -/
def vgaBuffer (i : ℕ) : ℕ := 0xB8000+2*i

def textCell (c color : ℕ) : ℕ := c ||| color <<< 8

/-- The loop that moves the rows of the text buffer up. -/
def moveRows (m : Memory) : Memory :=
  (List.range 24).foldl (fun m y => (List.range 80).foldl (fun m x =>
    write16 m (vgaBuffer (y*80+x)) (read16 m (vgaBuffer ((y+1)*80+x)))) m) m

def scrollText (color : ℕ) (m : Memory) : Memory :=
  (List.range 80).foldl (fun m x => write16 m (vgaBuffer (24*80+x)) (textCell 32 color)) (moveRows m)

end Text

section Terminal

def vgaToHex (color : ℕ) : ℕ :=
  [0x000000, 0x0000AA, 0x00AA00, 0x00AAAA, 0xAA0000, 0xAA00AA, 0xAA5500, 0xAAAAAA, 0x555555,
   0x5555FF, 0x55FF55, 0x55FFFF, 0xFF5555, 0xFF55FF, 0xFFFF55, 0xFFFFFF].getD (color%16) 0xFFFFFF

structure Console where
  mem : Memory
  bga : Bga
  graphicsMode : Bool
  cursorX : ℕ
  cursorY : ℕ
  termFg : ℕ
  termBg : ℕ
  termColor : ℕ
  bgaFg : ℕ
  bgaBg : ℕ
  /-- The registers of the display controller that hold where its cursor is. -/
  crtc : ℕ → ℕ

namespace Console

def setColor (s : Console) (fg bg : ℕ) : Console :=
  { s with
    termFg := fg
    termBg := bg
    termColor := (fg ||| bg <<< 4)%256
    bgaFg := vgaToHex fg
    bgaBg := vgaToHex bg }

def updateVgaCursor (s : Console) : Console :=
  let pos := (s.cursorY*80+s.cursorX)%65536
  { s with crtc := fun i => if i = 0x0E then pos/256 else if i = 0x0F then pos%256 else s.crtc i }

/-- `draw_bga_cursor` at the cursor. -/
def drawBgaCursor (s : Console) (draw : Bool) : Console :=
  let color := if draw then s.bgaFg else s.bgaBg
  { s with mem := (List.range 8).foldl (fun m i =>
      s.bga.putPixel (s.cursorX*8+i) (s.cursorY*8+6) color
        (s.bga.putPixel (s.cursorX*8+i) (s.cursorY*8+7) color m)) s.mem }

def maxX (s : Console) : ℕ :=
  if s.bga.initialized then s.bga.width/8 else if s.graphicsMode then 40 else 80

def maxY (s : Console) : ℕ := if s.bga.initialized then s.bga.height/8 else 25

def eraseCursor (s : Console) : Console := if s.bga.initialized then s.drawBgaCursor false else s

/-- A character at the cursor, on the display that is in use. -/
def drawCell (s : Console) (c : ℕ) : Console :=
  { s with mem :=
      if s.bga.initialized then s.bga.drawChar (s.cursorX*8) (s.cursorY*8) c s.bgaFg s.bgaBg s.mem
      else if s.graphicsMode then
        Vga.drawChar (s.cursorX*8) (s.cursorY*8) c s.termFg s.termBg s.mem
      else write16 s.mem (vgaBuffer (s.cursorY*80+s.cursorX)) (textCell c s.termColor) }

def edit (s : Console) (c : ℕ) : Console :=
  if c = 10 then { s.eraseCursor with cursorX := 0, cursorY := s.cursorY+1 }
  else if c = 8 then
    if 0 < s.cursorX then { s.eraseCursor with cursorX := s.cursorX-1 }.drawCell 32
    else if 0 < s.cursorY then
      { s.eraseCursor with cursorY := s.cursorY-1, cursorX := s.maxX-1 }.drawCell 32
    else s
  else { s.eraseCursor.drawCell c with cursorX := s.cursorX+1 }

def wrap (s : Console) : Console :=
  if s.maxX ≤ s.cursorX then { s with cursorX := 0, cursorY := s.cursorY+1 } else s

def newRow (s : Console) : Console :=
  if s.maxY ≤ s.cursorY then
    if s.bga.initialized then { s with mem := s.bga.scroll 1 s.bgaBg s.mem, cursorY := s.maxY-1 }
    else if s.graphicsMode then { s with mem := Vga.clear s.termBg s.mem, cursorY := 0 }
    else { s with mem := scrollText s.termColor s.mem, cursorY := s.maxY-1 }
  else s

def showCursor (s : Console) : Console :=
  if s.bga.initialized then s.drawBgaCursor true
  else if s.graphicsMode = false then s.updateVgaCursor
  else s

def putchar (s : Console) (c : ℕ) : Console := ((s.edit c).wrap.newRow).showCursor

end Console

end Terminal

end Vlsmc.ConsoleOutput
