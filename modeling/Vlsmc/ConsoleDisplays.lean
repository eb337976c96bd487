import Vlsmc.ConsoleOutput
import Vlsmc.ScrollingPages

/-!
# The displays of the console

Each display is a screen of cells: the text buffer, the picture of 320 by 200 bytes and the
framebuffer of 32-bit pixels. What draws a cell changes that cell only, what scrolls moves the
rows, and no byte outside the memory of the display changes.
-/

set_option autoImplicit false

namespace Vlsmc.ConsoleDisplays
open Vlsmc.ByteMemory Vlsmc.Words Vlsmc.CountedLoops Vlsmc.ScrollingPages Vlsmc.ConsoleOutput

variable {m m' : Memory} {x y c fg bg color : ℕ}

/-- Nothing changes outside `n` bytes from `a` on. -/
def Inside (a n : ℕ) (m m' : Memory) : Prop := ∀ k, k < a ∨ a+n ≤ k → m' k = m k

theorem Inside.trans {a n : ℕ} {m'' : Memory} (h : Inside a n m m') (h' : Inside a n m' m'') :
    Inside a n m m'' := fun k hk => (h' k hk).trans (h k hk)

theorem inside_refl (a n : ℕ) (m : Memory) : Inside a n m m := fun _ _ => rfl

section Text

def textScreen (m : Memory) (r c : ℕ) : ℕ := read16 m (vgaBuffer (r*80+c))

theorem textCell_lt (hc : c < 256) (hcolor : color < 256) : textCell c color < 65536 := by
  apply Nat.or_lt_two_pow (n := 16)
  · omega
  · rw [Nat.shiftLeft_eq]
    omega

theorem text_drawn (m : Memory) {v : ℕ} (hx : x < 80) (hv : v < 65536) :
    Drawn textScreen 25 80 m (write16 m (vgaBuffer (y*80+x)) v) y x v := by
  intro i hi j hj
  unfold textScreen
  by_cases hhere : i = y ∧ j = x
  · rw [if_pos hhere, hhere.1, hhere.2, read16_write16 m _ hv]
  · rw [if_neg hhere]
    apply read16_write16_ne
    unfold vgaBuffer
    omega

theorem text_inside (m : Memory) (v : ℕ) (hx : x < 80) (hy : y < 25) :
    Inside 0xB8000 4000 m (write16 m (vgaBuffer (y*80+x)) v) := by
  intro k hk
  apply write16_ne
  unfold vgaBuffer
  omega

/-- The rows that the loop has moved before cell `x` of row `y`. -/
def RowsMoved (m : Memory) (y x : ℕ) (r : Memory) : Prop :=
  Inside 0xB8000 4000 m r ∧ ∀ i < 25, ∀ j < 80, textScreen r i j =
    if i < y ∨ i = y ∧ j < x then textScreen m (i+1) j else textScreen m i j

theorem moveRows_moved (m : Memory) : RowsMoved m 24 0 (moveRows m) := by
  have hcell : ∀ y < 24, ∀ x < 80, ∀ r, RowsMoved m y x r → RowsMoved m y (x+1)
      (write16 r (vgaBuffer (y*80+x)) (read16 r (vgaBuffer ((y+1)*80+x)))) := by
    intro y hy x hx r hr
    obtain ⟨hinside, hrows⟩ := hr
    constructor
    · exact hinside.trans (text_inside r _ hx (by omega))
    · intro i hi j hj
      have hword : read16 r (vgaBuffer ((y+1)*80+x)) < 65536 := by
        have h0 := (r (vgaBuffer ((y+1)*80+x))).toNat_lt
        have h1 := (r (vgaBuffer ((y+1)*80+x)+1)).toNat_lt
        unfold read16
        omega
      have hbelow : read16 r (vgaBuffer ((y+1)*80+x)) = textScreen m (y+1) x := by
        have h := hrows (y+1) (by omega) x hx
        rwa [if_neg (by omega)] at h
      rw [text_drawn r hx hword i hi j hj]
      by_cases hhere : i = y ∧ j = x
      · rw [if_pos hhere, if_pos (by omega), hbelow, hhere.1, hhere.2]
      · rw [if_neg hhere, hrows i hi j hj]
        by_cases hdone : i < y ∨ i = y ∧ j < x
        · rw [if_pos hdone, if_pos (by omega)]
        · rw [if_neg hdone, if_neg (by omega)]
  have hstart : RowsMoved m 0 0 m := by
    constructor
    · exact inside_refl _ _ m
    · intro i hi j hj
      rw [if_neg (by omega)]
  apply foldl_range (P := fun y => RowsMoved m y 0) hstart 24
  intro y hy r hr
  have hend := foldl_range hr 80 (hcell y hy)
  constructor
  · exact hend.1
  · intro i hi j hj
    rw [hend.2 i hi j hj]
    by_cases hdone : i < y+1
    · rw [if_pos (by omega), if_pos (Or.inl hdone)]
    · rw [if_neg (by omega), if_neg (by omega)]

theorem text_moved (m : Memory) (hcolor : color < 256) :
    Moved textScreen 25 80 m (scrollText color m) 1 (textCell 32 color) ∧
      Inside 0xB8000 4000 m (scrollText color m) := by
  have hmoved := moveRows_moved m
  let P : ℕ → Memory → Prop := fun x r => Inside 0xB8000 4000 m r ∧ ∀ i < 25, ∀ j < 80,
    textScreen r i j = if i < 24 then textScreen m (i+1) j
      else if j < x then textCell 32 color else textScreen m i j
  have hstart : P 0 (moveRows m) := by
    constructor
    · exact hmoved.1
    · intro i hi j hj
      rw [hmoved.2 i hi j hj]
      by_cases hup : i < 24
      · rw [if_pos (Or.inl hup), if_pos hup]
      · rw [if_neg (by omega), if_neg hup, if_neg (by omega)]
  have hend : P 80 (scrollText color m) := by
    apply foldl_range hstart 80
    intro x hx r hr
    constructor
    · exact hr.1.trans (text_inside r _ hx (by decide))
    · intro i hi j hj
      rw [text_drawn r hx (textCell_lt (by decide) hcolor) i hi j hj, hr.2 i hi j hj]
      by_cases hup : i < 24
      · rw [if_neg (by omega), if_pos hup, if_pos hup]
      · rw [if_neg hup, if_neg hup]
        by_cases hhere : j = x
        · rw [if_pos (by omega), if_pos (by omega)]
        · rw [if_neg (by omega)]
          by_cases hdone : j < x
          · rw [if_pos hdone, if_pos (by omega)]
          · rw [if_neg hdone, if_neg (by omega)]
  constructor
  · intro i hi j hj
    rw [hend.2 i hi j hj, if_pos hj]
    by_cases hup : i < 24
    · rw [if_pos hup, if_pos (by omega)]
    · rw [if_neg hup, if_neg (by omega)]
  · exact hend.1

end Text

section Vga

def vgaPixel (m : Memory) (r c : ℕ) : UInt8 := m (vgaFbaddr+(r*320+c))

theorem vga_toNat (x y : ℕ) : ((y : ℤ)*320+(x : ℤ)).toNat = y*320+x := by
  rw [show (y : ℤ)*320+(x : ℤ) = ((y*320+x : ℕ) : ℤ) by push_cast; rfl, Int.toNat_natCast]

theorem vga_putPixel (m : Memory) (hx : x < 320) (hy : y < 200) :
    Vga.putPixel x y color m = write8 m (vgaFbaddr+(y*320+x)) (UInt8.ofNat color) := by
  unfold Vga.putPixel
  rw [if_pos (by omega), vga_toNat]

theorem vga_pixel_drawn (m : Memory) (hx : x < 320) (hy : y < 200) :
    Drawn vgaPixel 200 320 m (Vga.putPixel x y color m) y x (UInt8.ofNat color) := by
  rw [vga_putPixel m hx hy]
  intro i hi j hj
  unfold vgaPixel
  by_cases hhere : i = y ∧ j = x
  · rw [if_pos hhere, hhere.1, hhere.2, write8_same]
  · rw [if_neg hhere, write8_ne]
    omega

theorem vga_pixel_inside (m : Memory) (hx : x < 320) (hy : y < 200) :
    Inside vgaFbaddr 64000 m (Vga.putPixel x y color m) := by
  rw [vga_putPixel m hx hy]
  intro k hk
  apply write8_ne
  omega

def vgaScreen : Memory → ℕ → ℕ → Fin 8 → Fin 8 → UInt8 := blocks 8 vgaPixel

theorem vga_drawn (m : Memory) (c fg bg : ℕ) (hx : x < 40) (hy : y < 25) :
    Drawn vgaScreen 25 40 m (Vga.drawChar ((x*8 : ℕ) : ℤ) ((y*8 : ℕ) : ℤ) c fg bg m) y x
        (fun i j => UInt8.ofNat (if glyphBit c i j then fg else bg)) ∧
      Inside vgaFbaddr 64000 m (Vga.drawChar ((x*8 : ℕ) : ℤ) ((y*8 : ℕ) : ℤ) c fg bg m) := by
  have hcast : ∀ r : Memory, ∀ i j : ℕ, Vga.putPixel (((x*8 : ℕ) : ℤ)+j) (((y*8 : ℕ) : ℤ)+i)
      (if glyphBit c i j then fg else bg) r =
        Vga.putPixel ((8*x+j : ℕ) : ℤ) ((8*y+i : ℕ) : ℤ) (if glyphBit c i j then fg else bg) r := by
    intro r i j
    rw [Nat.mul_comm x 8, Nat.mul_comm y 8]
    push_cast
    rfl
  unfold Vga.drawChar
  simp only [hcast]
  constructor
  · apply drawn_blocks (h := 25) (w := 40)
      (v := fun i j => UInt8.ofNat (if glyphBit c i j then fg else bg))
    intro r i hi j hj
    exact vga_pixel_drawn r (by omega) (by omega)
  · apply grid_keeps (inside_refl _ _ m)
    intro r i hi j hj hr
    exact hr.trans (vga_pixel_inside r (by omega) (by omega))

/-- Clearing the picture moves every row out of it. -/
theorem vga_moved (bg : ℕ) (m : Memory) :
    Moved vgaScreen 25 40 m (Vga.clear bg m) 25 (fun _ _ => UInt8.ofNat bg) ∧
      Inside vgaFbaddr 64000 m (Vga.clear bg m) := by
  let P : ℕ → Memory → Prop := fun n r => ∀ k, r k =
    if vgaFbaddr ≤ k ∧ k < vgaFbaddr+n then UInt8.ofNat bg else m k
  have hstart : P 0 m := by
    intro k
    rw [if_neg (by omega)]
  have hround : ∀ n < 320*200, ∀ r, P n r →
      P (n+1) (write8 r (vgaFbaddr+n) (UInt8.ofNat bg)) := by
    intro n hn r hr k
    by_cases hhere : k = vgaFbaddr+n
    · rw [hhere, write8_same, if_pos (by omega)]
    · rw [write8_ne _ _ hhere, hr k]
      by_cases hdone : vgaFbaddr ≤ k ∧ k < vgaFbaddr+n
      · rw [if_pos hdone, if_pos (by omega)]
      · rw [if_neg hdone, if_neg (by omega)]
  have hend : P (320*200) (Vga.clear bg m) := foldl_range hstart (320*200) hround
  constructor
  · apply moved_blocks
    intro i hi j hj
    rw [if_neg (by omega)]
    exact (hend _).trans (if_pos (by omega))
  · intro k hk
    exact (hend k).trans (if_neg (by omega))

end Vga

section Bga

/-- A mode of the framebuffer as `init` sets it: 32 bits a pixel, a row of whole pixels. -/
structure Fits (b : Bga) : Prop where
  initialized : b.initialized = true
  depth : b.bpp = 32
  pitch : 4*b.width ≤ b.pitch
  whole : b.pitch%4 = 0
  width : 8 ≤ b.width
  height : 8 ≤ b.height
  cells : b.height%8 = 0
  size : b.height*b.pitch < 4294967296

variable {b : Bga}

def bgaPixel (b : Bga) (m : Memory) (r c : ℕ) : ℕ := read32 m (framebufferVirt+(r*b.pitch+4*c))

/-- The pixels of a row lie in it, and the rows lie one after the other. -/
theorem Fits.row_end (h : Fits b) {r c : ℕ} (hr : r < y) (hc : c < b.width) :
    r*b.pitch+4*c+4 ≤ y*b.pitch := by
  have hle : (r+1)*b.pitch ≤ y*b.pitch := Nat.mul_le_mul_right _ hr
  rw [Nat.succ_mul] at hle
  have hpitch := h.pitch
  omega

theorem Fits.putPixel_eq (h : Fits b) (m : Memory) (hx : x < b.width) (hy : y < b.height) :
    b.putPixel x y color m = write32 m (framebufferVirt+(y*b.pitch+4*x)) color := by
  have hend := h.row_end hy hx
  have hsize := h.size
  have hoffset : u32 (y*b.pitch+x*(b.bpp/8)) = y*b.pitch+4*x := by
    rw [h.depth]
    change (y*b.pitch+x*4)%4294967296 = _
    omega
  unfold Bga.putPixel
  rw [if_neg (by omega), hoffset]
  exact if_pos h.depth

theorem Fits.pixel_drawn (h : Fits b) (m : Memory) (hx : x < b.width) (hy : y < b.height)
    (hcolor : color < 4294967296) :
    Drawn (bgaPixel b) b.height b.width m (b.putPixel x y color m) y x color := by
  rw [h.putPixel_eq m hx hy]
  intro i hi j hj
  unfold bgaPixel
  by_cases hhere : i = y ∧ j = x
  · rw [if_pos hhere, hhere.1, hhere.2, read32_write32 m _ hcolor]
  · rw [if_neg hhere]
    apply read32_write32_ne
    rcases Nat.lt_trichotomy i y with hlt | heq | hlt
    · have hend := h.row_end hlt hj
      omega
    · rw [heq]
      omega
    · have hend := h.row_end hlt hx
      omega

theorem Fits.pixel_inside (h : Fits b) (m : Memory) (hx : x < b.width) (hy : y < b.height) :
    Inside framebufferVirt (b.height*b.pitch) m (b.putPixel x y color m) := by
  rw [h.putPixel_eq m hx hy]
  have hend := h.row_end hy hx
  intro k hk
  apply write32_ne
  omega

def bgaScreen (b : Bga) : Memory → ℕ → ℕ → Fin 8 → Fin 8 → ℕ := blocks 8 (bgaPixel b)

theorem Drawn.smaller {σ γ : Type*} {screen : σ → ℕ → ℕ → γ} {h w h' w' r c : ℕ} {s s' : σ} {v : γ}
    (hd : Drawn screen h w s s' r c v) (hh : h' ≤ h) (hw : w' ≤ w) : Drawn screen h' w' s s' r c v :=
  fun i hi j hj => hd i (Nat.lt_of_lt_of_le hi hh) j (Nat.lt_of_lt_of_le hj hw)

theorem Fits.char_drawn (h : Fits b) (m : Memory) (hx : x < b.width/8) (hy : y < b.height/8)
    (hfg : fg < 4294967296) (hbg : bg < 4294967296) :
    Drawn (bgaScreen b) (b.height/8) (b.width/8) m (b.drawChar (x*8) (y*8) c fg bg m) y x
        (fun i j => if glyphBit c i j then fg else bg) ∧
      Inside framebufferVirt (b.height*b.pitch) m (b.drawChar (x*8) (y*8) c fg bg m) := by
  rw [Nat.mul_comm x 8, Nat.mul_comm y 8]
  constructor
  · apply drawn_blocks (v := fun i j => if glyphBit c i j then fg else bg)
    intro r i hi j hj
    have hcolor : (if glyphBit c i j then fg else bg) < 4294967296 := by
      split_ifs
      · exact hfg
      · exact hbg
    apply Drawn.smaller (h.pixel_drawn r (by omega) (by omega) hcolor)
    · omega
    · omega
  · apply grid_keeps (inside_refl _ _ m)
    intro r i hi j hj hr
    exact hr.trans (h.pixel_inside r (by omega) (by omega))

theorem fillPixels_spec (i n : ℕ) (m : Memory) (hcolor : color < 4294967296) :
    (∀ q, read32 (Bga.fillPixels i n color m) (framebufferVirt+4*q) =
      if i ≤ q ∧ q < i+n then color else read32 m (framebufferVirt+4*q)) ∧
    Inside (framebufferVirt+4*i) (4*n) m (Bga.fillPixels i n color m) := by
  apply foldl_range (P := fun n r => (∀ q, read32 r (framebufferVirt+4*q) =
      if i ≤ q ∧ q < i+n then color else read32 m (framebufferVirt+4*q)) ∧
    Inside (framebufferVirt+4*i) (4*n) m r) _ n
  · intro k hk r hr
    constructor
    · intro q
      by_cases hhere : q = i+k
      · rw [hhere, read32_write32 r _ hcolor, if_pos (by omega)]
      · rw [read32_write32_ne r _ (by omega), hr.1 q]
        by_cases hdone : i ≤ q ∧ q < i+k
        · rw [if_pos hdone, if_pos (by omega)]
        · rw [if_neg hdone, if_neg (by omega)]
    · intro a ha
      rw [write32_ne r _ (by omega), hr.2 a (by omega)]
  · constructor
    · intro q
      rw [if_neg (by omega)]
    · exact fun _ _ => rfl

/-- The index of a pixel, by rows of `pitch/4`. -/
theorem Fits.pixel_index (h : Fits b) (m : Memory) (r c : ℕ) :
    bgaPixel b m r c = read32 m (framebufferVirt+4*(r*(b.pitch/4)+c)) := by
  have hpitch : b.pitch = 4*(b.pitch/4) := by
    have hwhole := h.whole
    omega
  unfold bgaPixel
  rw [Nat.mul_add, Nat.mul_left_comm 4 r, ← hpitch]

theorem Fits.index_lt (h : Fits b) {r c n : ℕ} (hc : c < b.width) :
    r*(b.pitch/4)+c < n*(b.pitch/4) ↔ r < n := by
  have hrow : c < b.pitch/4 := by
    have hpitch := h.pitch
    omega
  constructor
  · intro hlt
    by_contra hno
    have hle : n*(b.pitch/4) ≤ r*(b.pitch/4) := Nat.mul_le_mul_right _ (Nat.le_of_not_lt hno)
    omega
  · intro hlt
    have hle : (r+1)*(b.pitch/4) ≤ n*(b.pitch/4) := Nat.mul_le_mul_right _ hlt
    rw [Nat.succ_mul] at hle
    omega

/-- The words of the framebuffer from row `y` to its end. -/
theorem Fits.words (h : Fits b) {n : ℕ} (hn : n ≤ b.height) :
    u32 (n*b.pitch) = n*b.pitch ∧ n*b.pitch/4 = n*(b.pitch/4) ∧ n*b.pitch ≤ b.height*b.pitch := by
  have hle : n*b.pitch ≤ b.height*b.pitch := Nat.mul_le_mul_right _ hn
  have hsize := h.size
  have hpitch : b.pitch = 4*(b.pitch/4) := by
    have hwhole := h.whole
    omega
  have hwords : n*b.pitch = 4*(n*(b.pitch/4)) := by
    rw [Nat.mul_left_comm 4 n, ← hpitch]
  refine ⟨Nat.mod_eq_of_lt (by omega), by omega, hle⟩

/-- Filling the rows from `y` to the end. -/
theorem Fits.filled (h : Fits b) (m : Memory) (hy : y ≤ b.height) (hbg : bg < 4294967296) :
    (∀ r < b.height, ∀ c < b.width, bgaPixel b (Bga.fillPixels (y*(b.pitch/4))
      (b.height*(b.pitch/4)-y*(b.pitch/4)) bg m) r c = if y ≤ r then bg else bgaPixel b m r c) ∧
    Inside framebufferVirt (b.height*b.pitch) m (Bga.fillPixels (y*(b.pitch/4))
      (b.height*(b.pitch/4)-y*(b.pitch/4)) bg m) := by
  obtain ⟨hread, hinside⟩ := fillPixels_spec (y*(b.pitch/4))
    (b.height*(b.pitch/4)-y*(b.pitch/4)) m hbg
  obtain ⟨-, hwords, -⟩ := h.words (le_refl b.height)
  have hle : y*(b.pitch/4) ≤ b.height*(b.pitch/4) := Nat.mul_le_mul_right _ hy
  constructor
  · intro r hr c hc
    have hend := (h.index_lt (n := b.height) hc).mpr hr
    rw [h.pixel_index, h.pixel_index, hread]
    by_cases hfilled : y ≤ r
    · have hlow : ¬r*(b.pitch/4)+c < y*(b.pitch/4) := fun hlt =>
        Nat.not_lt.mpr hfilled ((h.index_lt hc).mp hlt)
      rw [if_pos hfilled, if_pos (by omega)]
    · have hlow := (h.index_lt (n := y) hc).mpr (Nat.lt_of_not_le hfilled)
      rw [if_neg hfilled, if_neg (by omega)]
  · intro k hk
    apply hinside
    omega

theorem Fits.scroll_small (h : Fits b) (m : Memory) (hsmall : b.height ≤ 8) : b.scroll 1 bg m =
    Bga.fillPixels (0*(b.pitch/4)) (b.height*(b.pitch/4)-0*(b.pitch/4)) bg m := by
  obtain ⟨hlen, hwords, -⟩ := h.words (le_refl b.height)
  have hon : ¬b.initialized = false := by simp [h.initialized]
  have hclear : b.scroll 1 bg m = b.clearScreen bg m := by
    unfold Bga.scroll
    rw [if_neg hon]
    exact if_pos hsmall
  rw [hclear, Bga.clearScreen, if_pos h.depth, Nat.mul_comm b.pitch, hlen, hwords, Nat.zero_mul,
    Nat.sub_zero]

theorem Fits.scroll_large (h : Fits b) (m : Memory) (hlarge : 8 < b.height) : b.scroll 1 bg m =
    Bga.fillPixels ((b.height-8)*(b.pitch/4)) (b.height*(b.pitch/4)-(b.height-8)*(b.pitch/4)) bg
      (copy m framebufferVirt (framebufferVirt+8*b.pitch) ((b.height-8)*b.pitch)) := by
  obtain ⟨hlen, hwords, -⟩ := h.words (Nat.sub_le b.height 8)
  obtain ⟨hall, hallwords, -⟩ := h.words (le_refl b.height)
  obtain ⟨hshift, -, -⟩ := h.words (n := 8) (Nat.le_of_lt hlarge)
  have hon : ¬b.initialized = false := by simp [h.initialized]
  have hpixels : u32 (1*8) = 8 := rfl
  have hstep : b.scroll 1 bg m = if b.bpp = 32 then
      Bga.fillPixels (u32 ((b.height-8)*b.pitch)/4)
        (u32 (b.height*b.pitch)/4-u32 ((b.height-8)*b.pitch)/4) bg (copy m framebufferVirt
          (framebufferVirt+u32 (8*b.pitch)) (u32 ((b.height-8)*b.pitch)))
      else b.fillRows (b.height-8) 8 bg (copy m framebufferVirt
          (framebufferVirt+u32 (8*b.pitch)) (u32 ((b.height-8)*b.pitch))) := by
    unfold Bga.scroll
    rw [if_neg hon, hpixels]
    exact if_neg (Nat.not_le.mpr hlarge)
  rw [hstep, if_pos h.depth, hlen, hall, hshift, hwords, hallwords]

/-- Copying the framebuffer down by eight rows of pixels. -/
theorem Fits.copied (h : Fits b) (m : Memory) {r c : ℕ} (hr : r+8 < b.height) (hc : c < b.width) :
    bgaPixel b (copy m framebufferVirt (framebufferVirt+8*b.pitch) ((b.height-8)*b.pitch)) r c =
      bgaPixel b m (r+8) c := by
  have hend : r*b.pitch+4*c+4 ≤ (b.height-8)*b.pitch := h.row_end (by omega) hc
  have hbyte : ∀ k < 4, copy m framebufferVirt (framebufferVirt+8*b.pitch) ((b.height-8)*b.pitch)
      (framebufferVirt+(r*b.pitch+4*c)+k) = m (framebufferVirt+((r+8)*b.pitch+4*c)+k) := by
    intro k hk
    have hget := copy_down m framebufferVirt (framebufferVirt+8*b.pitch) ((b.height-8)*b.pitch)
      (Nat.le_add_right _ _) (i := r*b.pitch+4*c+k) (by omega)
    rw [Nat.add_assoc, hget, Nat.add_mul]
    congr 1
    omega
  have h0 := hbyte 0 (by decide)
  rw [Nat.add_zero, Nat.add_zero] at h0
  unfold bgaPixel read32
  rw [h0, hbyte 1 (by decide), hbyte 2 (by decide), hbyte 3 (by decide)]

/-- The picture goes up by the height of a character. -/
theorem Fits.scroll_moved (h : Fits b) (m : Memory) (hbg : bg < 4294967296) :
    Moved (bgaScreen b) (b.height/8) (b.width/8) m (b.scroll 1 bg m) 1 (fun _ _ => bg) ∧
      Inside framebufferVirt (b.height*b.pitch) m (b.scroll 1 bg m) := by
  have hheight : 8*(b.height/8) = b.height := by
    have hcells := h.cells
    omega
  have hcells : ∀ m', (∀ r < b.height, ∀ c < b.width, bgaPixel b m' r c =
      if r+8 < b.height then bgaPixel b m (r+8) c else bg) →
      Moved (bgaScreen b) (b.height/8) (b.width/8) m m' 1 (fun _ _ => bg) := by
    intro m' hpixels
    apply moved_blocks
    intro i hi j hj
    rw [hpixels i (by omega) j (by omega), hheight]
  by_cases hsmall : b.height ≤ 8
  · obtain ⟨hpixels, hinside⟩ := h.filled m (Nat.zero_le b.height) hbg
    rw [h.scroll_small m hsmall]
    constructor
    · apply hcells
      intro r hr c hc
      rw [hpixels r hr c hc, if_pos (Nat.zero_le r), if_neg (by omega)]
    · exact hinside
  · obtain ⟨m₁, hm₁⟩ : ∃ m₁, m₁ = copy m framebufferVirt (framebufferVirt+8*b.pitch)
      ((b.height-8)*b.pitch) := ⟨_, rfl⟩
    obtain ⟨hpixels, hinside⟩ := h.filled m₁ (Nat.sub_le b.height 8) hbg
    rw [h.scroll_large m (Nat.lt_of_not_le hsmall), ← hm₁]
    constructor
    · apply hcells
      intro r hr c hc
      rw [hpixels r hr c hc]
      by_cases hup : r+8 < b.height
      · rw [if_neg (by omega), if_pos hup, hm₁, h.copied m hup hc]
      · rw [if_pos (by omega), if_neg hup]
    · have hcopy : Inside framebufferVirt (b.height*b.pitch) m m₁ := by
        obtain ⟨-, -, hle⟩ := h.words (Nat.sub_le b.height 8)
        intro k hk
        rw [hm₁]
        apply copy_ne
        omega
      exact hcopy.trans hinside

/-- The cursor is a bar of the two lowest rows of pixels. -/
theorem Fits.bar_drawn (h : Fits b) (m : Memory) (hx : x < b.width/8) (hy : y < b.height/8)
    (hcolor : color < 4294967296) (hm' : m' = (List.range 8).foldl (fun m i =>
      b.putPixel (x*8+i) (y*8+6) color (b.putPixel (x*8+i) (y*8+7) color m)) m) :
    Drawn (bgaScreen b) (b.height/8) (b.width/8) m m' y x
        (fun i j => if 6 ≤ (i : ℕ) then color else bgaScreen b m y x i j) ∧
      Inside framebufferVirt (b.height*b.pitch) m m' := by
  let P : ℕ → Memory → Prop := fun n r => Inside framebufferVirt (b.height*b.pitch) m r ∧
    ∀ a < b.height, ∀ c < b.width, bgaPixel b r a c =
      if y*8+6 ≤ a ∧ a ≤ y*8+7 ∧ x*8 ≤ c ∧ c < x*8+n then color else bgaPixel b m a c
  have hstart : P 0 m := by
    constructor
    · exact inside_refl _ _ m
    · intro a ha c hc
      rw [if_neg (by omega)]
  have hend : P 8 m' := by
    rw [hm']
    apply foldl_range hstart 8
    intro n hn r hr
    have hlow : x*8+n < b.width := by omega
    constructor
    · exact (hr.1.trans (h.pixel_inside r hlow (by omega))).trans (h.pixel_inside _ hlow (by omega))
    · intro a ha c hc
      rw [h.pixel_drawn _ hlow (by omega) hcolor a ha c hc,
        h.pixel_drawn r hlow (by omega) hcolor a ha c hc, hr.2 a ha c hc]
      by_cases hdone : y*8+6 ≤ a ∧ a ≤ y*8+7 ∧ x*8 ≤ c ∧ c < x*8+(n+1)
      · rw [if_pos hdone]
        by_cases h6 : a = y*8+6 ∧ c = x*8+n
        · rw [if_pos h6]
        · rw [if_neg h6]
          by_cases h7 : a = y*8+7 ∧ c = x*8+n
          · rw [if_pos h7]
          · rw [if_neg h7, if_pos (by omega)]
      · rw [if_neg (by omega), if_neg (by omega), if_neg (by omega), if_neg hdone]
  constructor
  · intro i hi j hj
    funext u v
    have hu := u.isLt
    have hv := v.isLt
    have hpixel : bgaScreen b m' i j u v = bgaPixel b m' (8*i+u) (8*j+v) := rfl
    rw [hpixel, hend.2 _ (by omega) _ (by omega)]
    by_cases hhere : i = y ∧ j = x
    · rw [if_pos hhere, hhere.1, hhere.2]
      by_cases hbar : 6 ≤ (u : ℕ)
      · rw [if_pos hbar, if_pos (by omega)]
      · rw [if_neg hbar, if_neg (by omega)]
        rfl
    · rw [if_neg hhere, if_neg (by omega)]
      rfl
  · exact hend.1

end Bga

end Vlsmc.ConsoleDisplays
