import Vlsmc.ConsoleDisplays

/-!
# What the console shows

A terminal is a page without end that is written cell by cell. Each of the three displays shows
the window of the page that ends with the row of the cursor, whatever is written and in whatever
colours.
-/

set_option autoImplicit false

namespace Vlsmc.ConsolePages
open Vlsmc.ByteMemory Vlsmc.ScrollingPages Vlsmc.ConsoleOutput Vlsmc.ConsoleDisplays

section Terminal

/-- A character in its colours; the bar is what the cursor has left of it, or its own. -/
structure Cell where
  char : ℕ
  fg : ℕ
  bg : ℕ
  bar : Option ℕ

structure Terminal where
  page : Page Cell
  fg : ℕ
  bg : ℕ

inductive Event
  | char (c : UInt8)
  | color (fg bg : UInt8)

inductive Display
  | text
  | picture
  | framebuffer (b : Bga)

namespace Display

def height : Display → ℕ
  | text => 25
  | picture => 25
  | framebuffer b => b.height/8

def width : Display → ℕ
  | text => 80
  | picture => 40
  | framebuffer b => b.width/8

/-- The number of rows by which the window moves. -/
def step : Display → ℕ
  | text => 1
  | picture => 25
  | framebuffer _ => 1

end Display

namespace Terminal

def cell (t : Terminal) (c : ℕ) : Cell := ⟨c, t.fg, t.bg, none⟩

def bar (color : ℕ) (x : Cell) : Cell := { x with bar := some color }

def edit (w : ℕ) (t : Terminal) (c : ℕ) : Page Cell :=
  let p := t.page.change (bar t.bg)
  if c = 10 then p.newline
  else if c = 8 then p.back w (t.cell 32)
  else (p.put (t.cell c)).right

def type (d : Display) (t : Terminal) (c : ℕ) : Terminal :=
  let p := ((t.edit d.width c).wrap d.width).feed d.height d.step (t.cell 32)
  { t with page := p.change (bar t.fg) }

def handle (d : Display) (t : Terminal) : Event → Terminal
  | .char c => t.type d c.toNat
  | .color fg bg => { t with fg := fg.toNat, bg := bg.toNat }

end Terminal

end Terminal

section Looks

variable {s : Console} {p : Page Cell} {d : Display} {x : Cell} {c fg bg color : ℕ}

def textInk (x : Cell) : ℕ := textCell x.char ((x.fg ||| x.bg <<< 4)%256)

def vgaInk (x : Cell) (i j : Fin 8) : UInt8 :=
  UInt8.ofNat (if glyphBit x.char i j then x.fg else x.bg)

def bgaInk (x : Cell) (i j : Fin 8) : ℕ :=
  (if 6 ≤ (i : ℕ) then x.bar else none).elim
    (if glyphBit x.char i j then vgaToHex x.fg else vgaToHex x.bg) vgaToHex

namespace Display

/-- The memory of the display. -/
def Inside : Display → Memory → Memory → Prop
  | text => ConsoleDisplays.Inside 0xB8000 4000
  | picture => ConsoleDisplays.Inside vgaFbaddr 64000
  | framebuffer b => ConsoleDisplays.Inside framebufferVirt (b.height*b.pitch)

/-- The display has the window of the page. -/
def Pictures : Display → Memory → Page Cell → Prop
  | text => Shows textScreen textInk 25 80
  | picture => Shows vgaScreen vgaInk 25 40
  | framebuffer b => Shows (bgaScreen b) bgaInk (b.height/8) (b.width/8)

/-- The display is the one that the console writes to. -/
def Uses : Display → Console → Prop
  | text, s => s.bga.initialized = false ∧ s.graphicsMode = false
  | picture, s => s.bga.initialized = false ∧ s.graphicsMode = true
  | framebuffer b, s => s.bga = b ∧ Fits b

end Display

/-- The console in the colours of a terminal. -/
structure Coloured (s : Console) (fg bg : ℕ) : Prop where
  foreground : s.termFg = fg
  background : s.termBg = bg
  both : s.termColor = (fg ||| bg <<< 4)%256
  bgaFg : s.bgaFg = vgaToHex fg
  bgaBg : s.bgaBg = vgaToHex bg

theorem Coloured.frame {s' : Console} (h : Coloured s fg bg) (h1 : s'.termFg = s.termFg)
    (h2 : s'.termBg = s.termBg) (h3 : s'.termColor = s.termColor) (h4 : s'.bgaFg = s.bgaFg)
    (h5 : s'.bgaBg = s.bgaBg) : Coloured s' fg bg :=
  ⟨h1.trans h.foreground, h2.trans h.background, h3.trans h.both, h4.trans h.bgaFg, h5.trans h.bgaBg⟩

theorem vgaToHex_lt (color : ℕ) : vgaToHex color < 4294967296 := by
  have hall : ∀ k < 16, vgaToHex k < 4294967296 := by decide
  have hmod : vgaToHex color = vgaToHex (color%16) := by
    unfold vgaToHex
    rw [Nat.mod_mod]
  rw [hmod]
  exact hall _ (Nat.mod_lt _ (by decide))

theorem blank_glyph : ∀ i < 8, ∀ j < 8, ¬glyphBit 32 i j := by decide

theorem Display.Inside.trans {m m' m'' : Memory} (h : d.Inside m m') (h' : d.Inside m' m'') :
    d.Inside m m'' := by
  cases d
  case text => exact ConsoleDisplays.Inside.trans h h'
  case picture => exact ConsoleDisplays.Inside.trans h h'
  case framebuffer b => exact ConsoleDisplays.Inside.trans h h'

theorem Display.inside_refl (d : Display) (m : Memory) : d.Inside m m := by
  cases d <;> exact ConsoleDisplays.inside_refl _ _ m

theorem bgaInk_cell (k : ℕ) : bgaInk ⟨k, fg, bg, none⟩ =
    fun i j : Fin 8 => if glyphBit k i j then vgaToHex fg else vgaToHex bg := by
  funext i j
  unfold bgaInk
  by_cases hbar : 6 ≤ (i : ℕ)
  · rw [if_pos hbar]
    rfl
  · rw [if_neg hbar]
    rfl

theorem bgaInk_bar (x : Cell) (k : ℕ) : bgaInk (Terminal.bar k x) =
    fun i j : Fin 8 => if 6 ≤ (i : ℕ) then vgaToHex k else bgaInk x i j := by
  funext i j
  unfold bgaInk Terminal.bar
  by_cases hbar : 6 ≤ (i : ℕ)
  · rw [if_pos hbar, if_pos hbar]
    rfl
  · rw [if_neg hbar, if_neg hbar, if_neg hbar]

theorem Display.Uses.maxX (h : d.Uses s) : s.maxX = d.width := by
  cases d with
  | text => simp [Console.maxX, h.1, h.2, Display.width]
  | picture => simp [Console.maxX, h.1, h.2, Display.width]
  | framebuffer b => simp [Console.maxX, h.1, h.2.initialized, Display.width]

theorem Display.Uses.maxY (h : d.Uses s) : s.maxY = d.height := by
  cases d with
  | text => simp [Console.maxY, h.1, Display.height]
  | picture => simp [Console.maxY, h.1, Display.height]
  | framebuffer b => simp [Console.maxY, h.1, h.2.initialized, Display.height]

theorem Display.Uses.room (h : d.Uses s) : 0 < d.width ∧ 0 < d.height ∧ 0 < d.step ∧
    d.step ≤ d.height := by
  cases d with
  | text => decide
  | picture => decide
  | framebuffer b =>
    have hwidth : 0 < b.width/8 := Nat.div_pos h.2.width (by decide)
    have hheight : 0 < b.height/8 := Nat.div_pos h.2.height (by decide)
    exact ⟨hwidth, hheight, Nat.one_pos, hheight⟩

/-- The console and the page at some point of their work: same colours, cursor and picture. -/
structure At (d : Display) (m : Memory) (fg bg : ℕ) (s : Console) (p : Page Cell) : Prop where
  uses : d.Uses s
  colours : Coloured s fg bg
  pictures : d.Pictures s.mem p
  inside : d.Inside m s.mem
  col : p.col = s.cursorX
  row : p.row = p.top+s.cursorY

variable {m : Memory}

theorem At.cell (h : At d m fg bg s p) (hx : s.cursorX < d.width) (hy : s.cursorY < d.height)
    (hchar : c < 256) : At d m fg bg (s.drawCell c) (p.put ⟨c, fg, bg, none⟩) := by
  obtain ⟨hd, hc, hp, hi, hcol, hrow⟩ := h
  have hpicture : d.Pictures (s.drawCell c).mem (p.put ⟨c, fg, bg, none⟩) ∧
      d.Inside s.mem (s.drawCell c).mem := by
    cases d with
    | text =>
      have hmem : (s.drawCell c).mem =
          write16 s.mem (vgaBuffer (s.cursorY*80+s.cursorX)) (textCell c s.termColor) := by
        simp [Console.drawCell, hd.1, hd.2]
      have hcell : textCell c s.termColor < 65536 := textCell_lt hchar (by
        rw [hc.both]
        exact Nat.mod_lt _ (by decide))
      rw [hmem]
      constructor
      · exact Shows.drawn hp (text_drawn s.mem hx hcell) hrow hcol (by rw [hc.both]; rfl)
      · exact text_inside s.mem _ hx hy
    | picture =>
      have hmem : (s.drawCell c).mem = Vga.drawChar ((s.cursorX*8 : ℕ) : ℤ) ((s.cursorY*8 : ℕ) : ℤ)
          c fg bg s.mem := by
        simp [Console.drawCell, hd.1, hd.2, hc.foreground, hc.background]
      obtain ⟨hdrawn, hinside⟩ := vga_drawn s.mem c fg bg hx hy
      rw [hmem]
      exact ⟨Shows.drawn hp hdrawn hrow hcol rfl, hinside⟩
    | framebuffer b =>
      obtain ⟨hb, hfits⟩ := hd
      have hmem : (s.drawCell c).mem = b.drawChar (s.cursorX*8) (s.cursorY*8) c (vgaToHex fg)
          (vgaToHex bg) s.mem := by
        simp [Console.drawCell, hb, hfits.initialized, hc.bgaFg, hc.bgaBg]
      obtain ⟨hdrawn, hinside⟩ := hfits.char_drawn (c := c) s.mem hx hy (vgaToHex_lt fg) (vgaToHex_lt bg)
      rw [hmem]
      exact ⟨Shows.drawn hp hdrawn hrow hcol (bgaInk_cell c).symm, hinside⟩
  refine ⟨?_, hc.frame rfl rfl rfl rfl rfl, hpicture.1, hi.trans hpicture.2, hcol, hrow⟩
  cases d <;> exact hd

/-- The bar of the framebuffer's cursor. -/
theorem At.drawBgaCursor {b : Bga} (h : At (.framebuffer b) m fg bg s p) (hx : s.cursorX < b.width/8)
    (hy : s.cursorY < b.height/8) (draw : Bool) :
    At (.framebuffer b) m fg bg (s.drawBgaCursor draw)
      (p.change (Terminal.bar (if draw then fg else bg))) := by
  obtain ⟨hd, hc, hp, hi, hcol, hrow⟩ := h
  have hcolor : (if draw then s.bgaFg else s.bgaBg) = vgaToHex (if draw then fg else bg) := by
    cases draw
    · exact hc.bgaBg
    · exact hc.bgaFg
  have hmem : (s.drawBgaCursor draw).mem = (List.range 8).foldl (fun m i =>
      b.putPixel (s.cursorX*8+i) (s.cursorY*8+6) (vgaToHex (if draw then fg else bg))
        (b.putPixel (s.cursorX*8+i) (s.cursorY*8+7) (vgaToHex (if draw then fg else bg)) m)) s.mem := by
    rw [← hcolor, ← hd.1]
    rfl
  obtain ⟨hdrawn, hinside⟩ := hd.2.bar_drawn s.mem hx hy (vgaToHex_lt _) hmem
  refine ⟨hd, hc.frame rfl rfl rfl rfl rfl, ?_, hi.trans hinside, hcol, hrow⟩
  apply Shows.drawn hp hdrawn hrow hcol
  have hshown := hp s.cursorY hy s.cursorX hx
  rw [bgaInk_bar, hshown, hrow, hcol]

/-- On the other displays a bar is not seen. -/
theorem At.unseen (h : At d m fg bg s p) (hd : ∀ b, d ≠ .framebuffer b) (color : ℕ) :
    At d m fg bg s (p.change (Terminal.bar color)) := by
  obtain ⟨hd', hc, hp, hi, hcol, hrow⟩ := h
  refine ⟨hd', hc, ?_, hi, hcol, hrow⟩
  cases d with
  | text => exact Shows.unchanged hp rfl
  | picture => exact Shows.unchanged hp rfl
  | framebuffer b => exact absurd rfl (hd b)

theorem At.eraseCursor (h : At d m fg bg s p) (hx : s.cursorX < d.width) (hy : s.cursorY < d.height) :
    At d m fg bg s.eraseCursor (p.change (Terminal.bar bg)) := by
  cases d with
  | text =>
    rw [Console.eraseCursor, if_neg (by simp [h.uses.1])]
    exact h.unseen (by simp) bg
  | picture =>
    rw [Console.eraseCursor, if_neg (by simp [h.uses.1])]
    exact h.unseen (by simp) bg
  | framebuffer b =>
    rw [Console.eraseCursor, if_pos (by simp [h.uses.1, h.uses.2.initialized])]
    exact h.drawBgaCursor hx hy false

theorem At.showCursor (h : At d m fg bg s p) (hx : s.cursorX < d.width) (hy : s.cursorY < d.height) :
    At d m fg bg s.showCursor (p.change (Terminal.bar fg)) := by
  cases d with
  | text =>
    obtain ⟨hd, hc, hp, hi, hcol, hrow⟩ := h.unseen (by simp) fg
    rw [Console.showCursor, if_neg (by simp [hd.1]), if_pos hd.2]
    exact ⟨hd, hc.frame rfl rfl rfl rfl rfl, hp, hi, hcol, hrow⟩
  | picture =>
    rw [Console.showCursor, if_neg (by simp [h.uses.1]), if_neg (by simp [h.uses.2])]
    exact h.unseen (by simp) fg
  | framebuffer b =>
    rw [Console.showCursor, if_pos (by simp [h.uses.1, h.uses.2.initialized])]
    exact h.drawBgaCursor hx hy true

theorem At.goto {s' : Console} {p' : Page Cell} {x y : ℕ} (h : At d m fg bg s p)
    (hs : s' = { s with cursorX := x, cursorY := y })
    (hp : p' = { p with col := x, row := p.top+y }) : At d m fg bg s' p' := by
  subst hs hp
  obtain ⟨hd, hc, hpicture, hi, -, -⟩ := h
  refine ⟨?_, hc.frame rfl rfl rfl rfl rfl, ?_, hi, rfl, rfl⟩
  · cases d <;> exact hd
  · cases d <;> exact hpicture

/-- Below the last row the window moves down, and the console goes to its first new row. -/
theorem newRow_below (hd : d.Uses s) (hc : Coloured s fg bg) (hp : d.Pictures s.mem p)
    (hy : d.height ≤ s.cursorY) (hbelow : p.top+d.height ≤ p.row) : ∃ mem,
    s.newRow = { s with mem := mem, cursorY := d.height-d.step } ∧ d.Inside s.mem mem ∧
      d.Pictures mem (p.feed d.height d.step ⟨32, fg, bg, none⟩) := by
  have hmax : s.maxY ≤ s.cursorY := by
    rw [hd.maxY]
    exact hy
  cases d with
  | text =>
    have hcolor : s.termColor < 256 := by
      rw [hc.both]
      exact Nat.mod_lt _ (by decide)
    obtain ⟨hmoved, hinside⟩ := text_moved s.mem hcolor
    refine ⟨scrollText s.termColor s.mem, ?_, hinside, ?_⟩
    · rw [Console.newRow, if_pos hmax, if_neg (by simp [hd.1]), if_neg (by simp [hd.2]), hd.maxY]
      rfl
    · exact Shows.moved hp hmoved hbelow (by rw [hc.both]; rfl)
  | picture =>
    obtain ⟨hmoved, hinside⟩ := vga_moved bg s.mem
    refine ⟨Vga.clear bg s.mem, ?_, hinside, Shows.moved hp hmoved hbelow ?_⟩
    · rw [Console.newRow, if_pos hmax, if_neg (by simp [hd.1]), if_pos hd.2, hc.background]
      rfl
    · funext i j
      rw [vgaInk, if_neg (blank_glyph i i.isLt j j.isLt)]
  | framebuffer b =>
    have hmaxY := hd.maxY
    obtain ⟨hb, hfits⟩ := hd
    obtain ⟨hmoved, hinside⟩ := hfits.scroll_moved s.mem (vgaToHex_lt bg)
    refine ⟨b.scroll 1 (vgaToHex bg) s.mem, ?_, hinside, Shows.moved hp hmoved hbelow ?_⟩
    · rw [Console.newRow, if_pos hmax, if_pos (by simp [hb, hfits.initialized]), hc.bgaBg, hb,
        hmaxY]
      rfl
    · rw [bgaInk_cell]
      funext i j
      exact (if_neg (blank_glyph i i.isLt j j.isLt)).symm

theorem At.newRow (h : At d m fg bg s p) (hy : s.cursorY ≤ d.height) :
    At d m fg bg s.newRow (p.feed d.height d.step ⟨32, fg, bg, none⟩) := by
  obtain ⟨hd, hc, hp, hi, hcol, hrow⟩ := h
  by_cases hin : s.cursorY < d.height
  · have hmax : ¬s.maxY ≤ s.cursorY := by
      rw [hd.maxY]
      omega
    rw [Console.newRow, if_neg hmax, Page.feed, if_pos (by omega)]
    exact ⟨hd, hc, hp, hi, hcol, hrow⟩
  · have hbelow : p.top+d.height ≤ p.row := by omega
    obtain ⟨mem, hnew, hinside, hpicture⟩ := newRow_below hd hc hp (Nat.le_of_not_lt hin) hbelow
    have hfeed : p.feed d.height d.step ⟨32, fg, bg, none⟩ =
        { p with top := p.top+d.step, cells := _ } := if_neg (by omega)
    obtain ⟨-, -, -, hstep⟩ := hd.room
    rw [hnew]
    refine ⟨?_, hc.frame rfl rfl rfl rfl rfl, hpicture, hi.trans hinside, ?_, ?_⟩
    · cases d <;> exact hd
    · rw [hfeed]
      exact hcol
    · rw [hfeed]
      change p.row = p.top+d.step+(d.height-d.step)
      omega

theorem eraseCursor_frame (s : Console) : s.eraseCursor = { s with mem := s.eraseCursor.mem } := by
  unfold Console.eraseCursor
  split_ifs <;> rfl

variable {t : Terminal}

theorem goto_eq {x y x' y' : ℕ} (p : Page Cell) (hx : x = x') (hy : y = y') :
    ({ p with col := x, row := y } : Page Cell) = { p with col := x', row := y' } := by
  rw [hx, hy]

/-- What a character does before the cursor is checked against the borders. -/
theorem At.edit (h : At d m t.fg t.bg s t.page) (hw : t.page.Within d.height d.width) (hchar : c < 256)
    (hstart : ¬(c = 8 ∧ s.cursorX = 0 ∧ s.cursorY = 0)) :
    At d m t.fg t.bg (s.edit c) (t.edit d.width c) := by
  obtain ⟨hlow, hhigh, hwide⟩ := hw
  have hcol := h.col
  have hrow := h.row
  have hx : s.cursorX < d.width := by omega
  have hy : s.cursorY < d.height := by omega
  have herased := h.eraseCursor hx hy
  have hframe := eraseCursor_frame s
  have hX : s.eraseCursor.cursorX = s.cursorX := by rw [hframe]
  have hY : s.eraseCursor.cursorY = s.cursorY := by rw [hframe]
  unfold Console.edit Terminal.edit
  by_cases hnew : c = 10
  · rw [if_pos hnew, if_pos hnew]
    apply herased.goto rfl
    apply goto_eq (p := t.page.change (Terminal.bar t.bg)) rfl
    change t.page.row+1 = t.page.top+(s.cursorY+1)
    omega
  · rw [if_neg hnew, if_neg hnew]
    by_cases hback : c = 8
    · rw [if_pos hback, if_pos hback]
      by_cases hleft : 0 < s.cursorX
      · have hmoved : At d m t.fg t.bg { s.eraseCursor with cursorX := s.cursorX-1 }
            { t.page.change (Terminal.bar t.bg) with col := t.page.col-1 } := by
          apply herased.goto (x := s.cursorX-1) (y := s.cursorY)
          · rw [← hY]
          · exact goto_eq (t.page.change (Terminal.bar t.bg)) (by omega) hrow
        rw [if_pos hleft, Page.back, if_pos (by change 0 < t.page.col; omega)]
        apply hmoved.cell
        · change s.cursorX-1 < d.width
          omega
        · change s.eraseCursor.cursorY < d.height
          omega
        · decide
      · have hup : 0 < s.cursorY := by omega
        have hwidth := h.uses.maxX
        have hmoved : At d m t.fg t.bg
            { s.eraseCursor with cursorY := s.cursorY-1, cursorX := s.maxX-1 }
            { t.page.change (Terminal.bar t.bg) with row := t.page.row-1, col := d.width-1 } := by
          apply herased.goto (x := s.maxX-1) (y := s.cursorY-1) rfl
          apply goto_eq (t.page.change (Terminal.bar t.bg)) (by rw [hwidth])
          change t.page.row-1 = t.page.top+(s.cursorY-1)
          omega
        rw [if_neg hleft, if_pos hup, Page.back, if_neg (by change ¬0 < t.page.col; omega),
          if_pos (by change t.page.top < t.page.row; omega)]
        apply hmoved.cell
        · change s.maxX-1 < d.width
          omega
        · change s.cursorY-1 < d.height
          omega
        · decide
    · rw [if_neg hback, if_neg hback]
      have hcell := herased.cell (c := c) (by omega) (by omega) hchar
      apply hcell.goto (x := s.cursorX+1) (y := s.cursorY)
      · rw [← hX, ← hY]
        rfl
      · apply goto_eq ((t.page.change (Terminal.bar t.bg)).put (t.cell c)) _ hrow
        change t.page.col+1 = s.cursorX+1
        omega

theorem At.wrap (h : At d m fg bg s p) : At d m fg bg s.wrap (p.wrap d.width) := by
  have hcol := h.col
  have hrow := h.row
  unfold Console.wrap Page.wrap
  rw [h.uses.maxX, ← hcol]
  by_cases hfull : d.width ≤ p.col
  · rw [if_pos hfull, if_pos hfull]
    apply h.goto rfl
    apply goto_eq p rfl
    omega
  · rw [if_neg hfull, if_neg hfull]
    exact h

/-- After a character the cursor is in the window, at its right border or just below it. -/
theorem edit_bounds {h w : ℕ} (hw : t.page.Within h w) (c : ℕ) :
    (t.edit w c).top = t.page.top ∧ t.page.top ≤ (t.edit w c).row ∧
      (t.edit w c).row ≤ t.page.top+h ∧ (t.edit w c).col ≤ w ∧
      ((t.edit w c).col = w → (t.edit w c).row < t.page.top+h) := by
  have hin : (t.page.change (Terminal.bar t.bg)).Within h w := ⟨hw.low, hw.high, hw.wide⟩
  unfold Terminal.edit
  by_cases hnew : c = 10
  · rw [if_pos hnew]
    have hhigh := hw.high
    have hwide := hw.wide
    exact ⟨rfl, Nat.le_succ_of_le hw.low, hhigh, Nat.zero_le w, fun h0 => absurd h0 (by
      change (0 : ℕ) ≠ w
      omega)⟩
  · rw [if_neg hnew]
    by_cases hback : c = 8
    · rw [if_pos hback]
      obtain ⟨hlow, hhigh, hwide⟩ := hin.back (x := t.cell 32)
      have htop : ((t.page.change (Terminal.bar t.bg)).back w (t.cell 32)).top = t.page.top := by
        unfold Page.back
        split_ifs <;> rfl
      rw [htop] at hlow hhigh
      exact ⟨htop, hlow, Nat.le_of_lt hhigh, Nat.le_of_lt hwide, fun _ => hhigh⟩
    · rw [if_neg hback]
      exact ⟨rfl, hw.low, Nat.le_of_lt hw.high, hw.wide, fun _ => hw.high⟩

theorem wrap_bounds {h w : ℕ} (hw : t.page.Within h w) (c : ℕ) :
    ((t.edit w c).wrap w).top ≤ ((t.edit w c).wrap w).row ∧
      ((t.edit w c).wrap w).row ≤ ((t.edit w c).wrap w).top+h ∧ ((t.edit w c).wrap w).col < w := by
  obtain ⟨htop, hlow, hhigh, hwide, hfull⟩ := edit_bounds hw c
  unfold Page.wrap
  by_cases hborder : w ≤ (t.edit w c).col
  · have hbelow := hfull (by omega)
    have hw := hw.wide
    rw [if_pos hborder]
    refine ⟨?_, ?_, ?_⟩
    · change (t.edit w c).top ≤ (t.edit w c).row+1
      omega
    · change (t.edit w c).row+1 ≤ (t.edit w c).top+h
      omega
    · change 0 < w
      omega
  · rw [if_neg hborder]
    exact ⟨by omega, by omega, by omega⟩

end Looks

section Runs

variable {d : Display} {m : Memory} {s : Console} {t : Terminal}

/-- The display shows the page of the terminal; of the memory `m` it has changed only its own. -/
structure Holds (d : Display) (m : Memory) (s : Console) (t : Terminal) : Prop where
  same : At d m t.fg t.bg s t.page
  within : t.page.Within d.height d.width

/-- A backspace at the start of the window only shows the cursor again. -/
theorem At.backspace_start (h : At d m t.fg t.bg s t.page) (hx : s.cursorX = 0) (hy : s.cursorY = 0) :
    At d m t.fg t.bg (s.putchar 8) (t.type d 8).page := by
  obtain ⟨hwidth, hheight, -, -⟩ := h.uses.room
  have hcol := h.col
  have hrow := h.row
  have hconsole : s.putchar 8 = s.showCursor := by
    have hedit : s.edit 8 = s := by
      rw [Console.edit, if_neg (by decide), if_pos rfl, if_neg (by omega), if_neg (by omega)]
    have hwrap : s.wrap = s := if_neg (by
      rw [h.uses.maxX]
      omega)
    have hnew : s.newRow = s := if_neg (by
      rw [h.uses.maxY]
      omega)
    rw [Console.putchar, hedit, hwrap, hnew]
  have hpage : (t.type d 8).page = t.page.change (Terminal.bar t.fg) := by
    let p := t.page.change (Terminal.bar t.bg)
    have hback : p.back d.width (t.cell 32) = p := by
      rw [Page.back, if_neg (by change ¬0 < t.page.col; omega),
        if_neg (by change ¬t.page.top < t.page.row; omega)]
    have hwrap : p.wrap d.width = p := if_neg (by
      change ¬d.width ≤ t.page.col
      omega)
    have hfeed : p.feed d.height d.step (t.cell 32) = p := if_pos (by
      change t.page.row < t.page.top+d.height
      omega)
    have hedit : t.edit d.width 8 = p := by
      rw [Terminal.edit, if_neg (by decide), if_pos rfl]
      exact hback
    change (((t.edit d.width 8).wrap d.width).feed d.height d.step (t.cell 32)).change _ = _
    rw [hedit, hwrap, hfeed, Page.change_change]
    rfl
  rw [hconsole, hpage]
  exact h.showCursor (by omega) (by omega)

theorem Holds.putchar (h : Holds d m s t) {c : ℕ} (hchar : c < 256) :
    Holds d m (s.putchar c) (t.type d c) := by
  obtain ⟨hat, hw⟩ := h
  obtain ⟨-, -, hstep, hheight⟩ := hat.uses.room
  obtain ⟨hlow, hhigh, hwide⟩ := wrap_bounds hw c
  have hwithin := Page.feed_within (x := t.cell 32) ⟨hstep, hheight⟩ hlow hhigh hwide
  refine ⟨?_, ⟨hwithin.low, hwithin.high, hwithin.wide⟩⟩
  by_cases hstart : c = 8 ∧ s.cursorX = 0 ∧ s.cursorY = 0
  · rw [hstart.1]
    exact hat.backspace_start hstart.2.1 hstart.2.2
  · have hwrapped := (hat.edit hw hchar hstart).wrap
    have hrow := hwrapped.row
    have hfed : At d m t.fg t.bg ((s.edit c).wrap.newRow)
        (((t.edit d.width c).wrap d.width).feed d.height d.step (t.cell 32)) :=
      hwrapped.newRow (by omega)
    apply hfed.showCursor
    · rw [← hfed.col]
      exact hwithin.wide
    · have hfedrow := hfed.row
      have hfedhigh := hwithin.high
      omega

theorem Holds.setColor (h : Holds d m s t) (fg bg : ℕ) :
    Holds d m (s.setColor fg bg) { t with fg := fg, bg := bg } := by
  obtain ⟨⟨hd, -, hp, hi, hcol, hrow⟩, hw⟩ := h
  refine ⟨⟨?_, ⟨rfl, rfl, rfl, rfl, rfl⟩, hp, hi, hcol, hrow⟩, hw⟩
  cases d <;> exact hd

def handle (s : Console) : Event → Console
  | .char c => s.putchar c.toNat
  | .color fg bg => s.setColor fg.toNat bg.toNat

/-- In every run the display shows the window of the page. -/
theorem console_shows (h : Holds d m s t) (es : List Event) :
    Holds d m (es.foldl handle s) (es.foldl (Terminal.handle d) t) := by
  induction es generalizing s t with
  | nil => exact h
  | cons e es ih =>
    apply ih
    cases e with
    | char c => exact h.putchar c.toNat_lt
    | color fg bg => exact h.setColor fg.toNat bg.toNat

/-- The mode that the kernel sets, with a black picture. -/
def kernelMode : Bga := ⟨true, 1024, 768, 32, 4096⟩

def kernelConsole : Console where
  mem := fun _ => 0
  bga := kernelMode
  graphicsMode := false
  cursorX := 0
  cursorY := 15
  termFg := 15
  termBg := 0
  termColor := 15
  bgaFg := 0xFFFFFF
  bgaBg := 0
  crtc := fun _ => 0

def kernelTerminal : Terminal := ⟨⟨fun _ _ => ⟨32, 15, 0, none⟩, 15, 0, 0⟩, 15, 0⟩

theorem kernelConsole_holds :
    Holds (.framebuffer kernelMode) kernelConsole.mem kernelConsole kernelTerminal := by
  have hfits : Fits kernelMode := ⟨rfl, rfl, by decide, rfl, by decide, by decide, rfl, by decide⟩
  refine ⟨⟨⟨rfl, hfits⟩, ⟨rfl, rfl, rfl, rfl, rfl⟩, ?_, ConsoleDisplays.inside_refl _ _ _, rfl, rfl⟩,
    ⟨by decide, by decide, by decide⟩⟩
  intro r hr c hc
  have hblack : bgaScreen kernelMode kernelConsole.mem r c = fun _ _ => 0 := rfl
  rw [hblack]
  change _ = bgaInk ⟨32, 15, 0, none⟩
  rw [bgaInk_cell]
  funext i j
  rw [if_neg (blank_glyph i i.isLt j j.isLt)]
  rfl

theorem console_shows_kernel : Holds (.framebuffer kernelMode) kernelConsole.mem
    ([Event.char 82, .color 10 1, .char 10, .char 8].foldl handle kernelConsole)
    ([Event.char 82, .color 10 1, .char 10, .char 8].foldl
      (Terminal.handle (.framebuffer kernelMode)) kernelTerminal) :=
  console_shows kernelConsole_holds _

end Runs

end Vlsmc.ConsolePages
