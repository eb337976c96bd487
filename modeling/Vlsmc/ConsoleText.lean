import Vlsmc.ConsolePages

/-!
# Text on the screen

Text without backspaces in text mode: the screen ends with the rows of the text, broken at line
ends and after 80 characters, and the rows above the cursor move up as far as they have to.
-/

set_option autoImplicit false

namespace Vlsmc.ConsoleText
open Vlsmc.ByteMemory Vlsmc.ScrollingPages Vlsmc.ConsoleOutput Vlsmc.ConsoleDisplays Vlsmc.ConsolePages

section Layout

variable {w i j c : ℕ} {done : List (List ℕ)} {cur : List ℕ}

/-- The rows that are full or ended, and the row of the cursor. -/
def lay (w : ℕ) (l : List (List ℕ)×List ℕ) (c : ℕ) : List (List ℕ)×List ℕ :=
  if c = 10 then (l.1++[l.2], [])
  else if l.2.length+1 = w then (l.1++[l.2++[c]], [])
  else (l.1, l.2++[c])

def layout (w : ℕ) (text : List ℕ) : List (List ℕ)×List ℕ := text.foldl (lay w) ([], [])

def charAt (rows : List (List ℕ)) (i j : ℕ) : ℕ := (rows.getD i []).getD j 32

theorem charAt_end (done : List (List ℕ)) (i j : ℕ) : charAt (done++[[]]) i j = charAt done i j := by
  unfold charAt
  simp only [List.getD_eq_getElem?_getD]
  by_cases hin : i < done.length
  · rw [List.getElem?_append_left hin]
  · rw [List.getElem?_append_right (Nat.le_of_not_lt hin), List.getElem?_eq_none (Nat.le_of_not_lt hin)]
    cases i-done.length <;> rfl

/-- A character more at the end of the last row. -/
theorem charAt_put (done : List (List ℕ)) (cur : List ℕ) (c i j : ℕ) : charAt (done++[cur++[c]]) i j =
    if i = done.length ∧ j = cur.length then c else charAt (done++[cur]) i j := by
  unfold charAt
  simp only [List.getD_eq_getElem?_getD]
  rcases Nat.lt_trichotomy i done.length with hlt | rfl | hlt
  · rw [if_neg (by omega), List.getElem?_append_left hlt, List.getElem?_append_left hlt]
  · rw [List.getElem?_concat_length, List.getElem?_concat_length]
    simp only [Option.getD_some, true_and]
    rcases Nat.lt_trichotomy j cur.length with hj | rfl | hj
    · rw [if_neg (by omega), List.getElem?_append_left hj]
    · rw [if_pos rfl, List.getElem?_concat_length]
      rfl
    · have hlong : (cur++[c]).length ≤ j := by
        rw [List.length_append]
        exact hj
      rw [if_neg (by omega), List.getElem?_eq_none hlong, List.getElem?_eq_none (Nat.le_of_lt hj)]
  · have hbelow : ∀ row : List ℕ, (done++[row])[i]? = none := by
      intro row
      apply List.getElem?_eq_none
      rw [List.length_append]
      exact hlt
    rw [if_neg (by omega), hbelow, hbelow]

theorem charAt_beyond {rows : List (List ℕ)} {i : ℕ} (h : rows.length ≤ i) (j : ℕ) : charAt rows i j = 32 := by
  unfold charAt
  simp only [List.getD_eq_getElem?_getD]
  rw [List.getElem?_eq_none h]
  rfl

end Layout

section Pages

variable {r₀ : ℕ} {old : ℕ → ℕ → ℕ} {t : Terminal} {l : List (List ℕ)×List ℕ}

/-- The page with the rows of a text from row `r₀` on. -/
structure Laid (r₀ : ℕ) (old : ℕ → ℕ → ℕ) (t : Terminal) (l : List (List ℕ)×List ℕ) : Prop where
  row : t.page.row = r₀+l.1.length
  col : t.page.col = l.2.length
  short : l.2.length < 80
  top : t.page.top = t.page.row+1-25
  cells : ∀ r, ∀ c < 80, textInk (t.page.cells r c) = if r < r₀ then old r c
    else textCell (charAt (l.1++[l.2]) (r-r₀) c) ((t.fg ||| t.bg <<< 4)%256)

/-- The page after the borders are checked, from the row and the column that come before. -/
theorem type_page (t : Terminal) (c : ℕ) {p : Page Cell} (hp : (t.edit 80 c).wrap 80 = p)
    (htop : p.top = t.page.top) (hpage : t.page.top = t.page.row+1-25)
    (hrow : t.page.row ≤ p.row ∧ p.row ≤ t.page.row+1) :
    (t.type .text c).page.row = p.row ∧ (t.type .text c).page.col = p.col ∧
      (t.type .text c).page.top = p.row+1-25 ∧
      ∀ r j, textInk ((t.type .text c).page.cells r j) = if p.top+25 ≤ r ∧ r = p.row then
        textCell 32 ((t.fg ||| t.bg <<< 4)%256) else textInk (p.cells r j) := by
  have hpage' : (t.type .text c).page = (p.feed 25 1 (t.cell 32)).change (Terminal.bar t.fg) := by
    rw [← hp]
    rfl
  have hbar : ∀ (q : Page Cell) r j, textInk ((q.change (Terminal.bar t.fg)).cells r j) =
      textInk (q.cells r j) := by
    intro q r j
    change textInk (if r = q.row ∧ j = q.col then _ else _) = _
    by_cases hhere : r = q.row ∧ j = q.col
    · rw [if_pos hhere, hhere.1, hhere.2]
      rfl
    · rw [if_neg hhere]
  rw [hpage']
  by_cases hin : p.row < p.top+25
  · have hfeed : p.feed 25 1 (t.cell 32) = p := if_pos hin
    rw [hfeed]
    refine ⟨rfl, rfl, ?_, ?_⟩
    · change p.top = _
      omega
    · intro r j
      rw [hbar, if_neg (by omega)]
  · have hfeed : p.feed 25 1 (t.cell 32) = { p with top := p.top+1, cells := _ } := if_neg hin
    rw [hfeed]
    refine ⟨rfl, rfl, ?_, ?_⟩
    · change p.top+1 = _
      omega
    · intro r j
      rw [hbar]
      by_cases hnew : p.top+25 ≤ r ∧ r < p.top+25+1
      · rw [if_pos (by omega)]
        exact congrArg textInk (if_pos hnew)
      · rw [if_neg (by omega)]
        exact congrArg textInk (if_neg hnew)

theorem Laid.newline (h : Laid r₀ old t l) : Laid r₀ old (t.type .text 10) (l.1++[l.2], []) := by
  have hp : (t.edit 80 10).wrap 80 = (t.page.change (Terminal.bar t.bg)).newline := by
    rw [Terminal.edit, if_pos rfl]
    exact if_neg (by change ¬80 ≤ 0; decide)
  obtain ⟨hrow, hcol, htop, hcells⟩ := type_page t 10 hp rfl h.top ⟨Nat.le_succ _, le_refl _⟩
  have hlast := h.row
  constructor
  case row =>
    rw [hrow, List.length_append]
    change t.page.row+1 = r₀+(l.1.length+1)
    omega
  case col => exact hcol
  case short => exact Nat.zero_lt_succ 79
  case top => rw [hrow, htop]
  case cells =>
    intro r j hj
    have hsame : textInk ((t.page.change (Terminal.bar t.bg)).newline.cells r j) =
        textInk (t.page.cells r j) := by
      change textInk (if r = t.page.row ∧ j = t.page.col then _ else _) = _
      by_cases hhere : r = t.page.row ∧ j = t.page.col
      · rw [if_pos hhere, hhere.1, hhere.2]
        rfl
      · rw [if_neg hhere]
    change _ = if r < r₀ then old r j else
      textCell (charAt ((l.1++[l.2])++[[]]) (r-r₀) j) ((t.fg ||| t.bg <<< 4)%256)
    rw [charAt_end]
    by_cases hnew : t.page.top+25 ≤ r ∧ r = t.page.row+1
    · have hbelow : charAt (l.1++[l.2]) (r-r₀) j = 32 := by
        apply charAt_beyond
        rw [List.length_append, List.length_singleton]
        omega
      rw [if_neg (by omega : ¬r < r₀), hbelow]
      exact (hcells r j).trans (if_pos hnew)
    · exact ((hcells r j).trans (if_neg hnew)).trans (hsame.trans (h.cells r j hj))

/-- A character that ends no line. -/
theorem Laid.char (h : Laid r₀ old t l) {c : ℕ} (hc : c ≠ 8) (hline : c ≠ 10) :
    Laid r₀ old (t.type .text c) (lay 80 l c) := by
  have hlast := h.row
  have hcol := h.col
  have hshort := h.short
  let q := ((t.page.change (Terminal.bar t.bg)).put (t.cell c)).right
  have hedit : t.edit 80 c = q := by rw [Terminal.edit, if_neg hline, if_neg hc]
  have hput : ∀ r j, textInk (q.cells r j) = if r = t.page.row ∧ j = t.page.col then
      textCell c ((t.fg ||| t.bg <<< 4)%256) else textInk (t.page.cells r j) := by
    intro r j
    change textInk (if r = t.page.row ∧ j = t.page.col then _ else
      if r = t.page.row ∧ j = t.page.col then _ else _) = _
    by_cases hhere : r = t.page.row ∧ j = t.page.col
    · rw [if_pos hhere, if_pos hhere]
      rfl
    · rw [if_neg hhere, if_neg hhere, if_neg hhere]
  have hcells : ∀ r, ∀ j < 80, textInk (q.cells r j) = if r < r₀ then old r j
      else textCell (charAt (l.1++[l.2++[c]]) (r-r₀) j) ((t.fg ||| t.bg <<< 4)%256) := by
    intro r j hj
    rw [hput, h.cells r j hj, charAt_put]
    by_cases hhere : r = t.page.row ∧ j = t.page.col
    · rw [if_pos hhere, if_neg (by omega), if_pos (by omega)]
    · rw [if_neg hhere]
      by_cases hold : r < r₀
      · rw [if_pos hold, if_pos hold]
      · rw [if_neg hold, if_neg hold, if_neg (by omega)]
  unfold lay
  rw [if_neg hline]
  by_cases hfull : l.2.length+1 = 80
  · have hp : (t.edit 80 c).wrap 80 = q.newline := by
      rw [hedit]
      exact if_pos (by change 80 ≤ t.page.col+1; omega)
    obtain ⟨hrow', hcol', htop', hcells'⟩ := type_page t c hp rfl h.top ⟨Nat.le_succ _, le_refl _⟩
    rw [if_pos hfull]
    constructor
    case row =>
      rw [hrow', List.length_append]
      change t.page.row+1 = r₀+(l.1.length+1)
      omega
    case col => exact hcol'
    case short => exact Nat.zero_lt_succ 79
    case top => rw [hrow', htop']
    case cells =>
      intro r j hj
      change _ = if r < r₀ then old r j else
        textCell (charAt ((l.1++[l.2++[c]])++[[]]) (r-r₀) j) ((t.fg ||| t.bg <<< 4)%256)
      rw [charAt_end]
      by_cases hnew : t.page.top+25 ≤ r ∧ r = t.page.row+1
      · have hbelow : charAt (l.1++[l.2++[c]]) (r-r₀) j = 32 := by
          apply charAt_beyond
          rw [List.length_append, List.length_singleton]
          omega
        rw [if_neg (by omega : ¬r < r₀), hbelow]
        exact (hcells' r j).trans (if_pos hnew)
      · exact (hcells' r j).trans ((if_neg hnew).trans (hcells r j hj))
  · have hp : (t.edit 80 c).wrap 80 = q := by
      rw [hedit]
      exact if_neg (by change ¬80 ≤ t.page.col+1; omega)
    obtain ⟨hrow', hcol', htop', hcells'⟩ := type_page t c hp rfl h.top ⟨le_refl _, Nat.le_succ _⟩
    rw [if_neg hfull]
    constructor
    case row => exact hrow'.trans hlast
    case col =>
      rw [hcol', List.length_append]
      change t.page.col+1 = l.2.length+1
      omega
    case short =>
      rw [List.length_append]
      change l.2.length+1 < 80
      omega
    case top => rw [hrow', htop']
    case cells =>
      intro r j hj
      have hwindow : ¬(t.page.top+25 ≤ r ∧ r = t.page.row) := by
        have htop := h.top
        omega
      exact (hcells' r j).trans ((if_neg hwindow).trans (hcells r j hj))

theorem Laid.run (h : Laid r₀ old t l) (text : List UInt8) (hback : 8 ∉ text) :
    Laid r₀ old ((text.map Event.char).foldl (Terminal.handle .text) t)
      ((text.map UInt8.toNat).foldl (lay 80) l) := by
  induction text generalizing t l with
  | nil => exact h
  | cons c text ih =>
    have hc : c.toNat ≠ 8 := by
      intro heq
      apply hback
      rw [← UInt8.toNat_inj.mp (heq.trans (by decide : 8 = (8 : UInt8).toNat))]
      exact List.mem_cons_self
    apply ih _ fun hmem => hback (List.mem_cons_of_mem c hmem)
    by_cases hline : c.toNat = 10
    · change Laid r₀ old (t.type .text c.toNat) (lay 80 l c.toNat)
      rw [hline, lay, if_pos rfl]
      exact h.newline
    · exact h.char hc hline

end Pages

section Screens

variable {s : Console} {fg bg : ℕ}

/-- A cell that looks like a word of the text buffer. -/
def decode (v : ℕ) : Cell := ⟨v%256, v/256%256, 0, none⟩

theorem textInk_decode {v : ℕ} (h : v < 65536) : textInk (decode v) = v := by
  have hzero : v/256%256 ||| 0 <<< 4 = v/256%256 := by
    rw [Nat.zero_shiftLeft, Nat.or_zero]
  change textCell (v%256) ((v/256%256 ||| 0 <<< 4)%256) = v
  rw [hzero, textCell, Nat.shiftLeft_eq, Nat.or_comm, Nat.mul_comm,
    ← Nat.two_pow_add_eq_or_of_lt (i := 8) (Nat.mod_lt v (by decide))]
  omega

theorem textScreen_lt (m : Memory) (r c : ℕ) : textScreen m r c < 65536 := by
  have h0 := (m (vgaBuffer (r*80+c))).toNat_lt
  have h1 := (m (vgaBuffer (r*80+c)+1)).toNat_lt
  unfold textScreen read16
  omega

/-- The page of a screen that is blank from the row of the cursor on. -/
def pageOf (s : Console) (fg bg : ℕ) : Terminal where
  page :=
    { cells := fun r c => if r < s.cursorY then decode (textScreen s.mem r c) else ⟨32, fg, bg, none⟩
      row := s.cursorY
      col := 0
      top := 0 }
  fg := fg
  bg := bg

theorem pageOf_laid (hy : s.cursorY < 25) : Laid s.cursorY (textScreen s.mem) (pageOf s fg bg) ([], []) := by
  constructor
  case row => rfl
  case col => rfl
  case short => exact Nat.zero_lt_succ 79
  case top =>
    change 0 = s.cursorY+1-25
    omega
  case cells =>
    intro r c hc
    change textInk (if r < s.cursorY then _ else _) = _
    by_cases hold : r < s.cursorY
    · rw [if_pos hold, if_pos hold, textInk_decode (textScreen_lt s.mem r c)]
    · have hempty : charAt [[]] (r-s.cursorY) c = 32 := charAt_end [] _ c
      rw [if_neg hold, if_neg hold]
      change _ = textCell (charAt [[]] (r-s.cursorY) c) ((fg ||| bg <<< 4)%256)
      rw [hempty]
      rfl

theorem pageOf_holds (hmode : s.bga.initialized = false ∧ s.graphicsMode = false)
    (hc : Coloured s fg bg) (hx : s.cursorX = 0) (hy : s.cursorY < 25)
    (hblank : ∀ r < 25, s.cursorY ≤ r → ∀ c < 80, textScreen s.mem r c = textCell 32 s.termColor) :
    Holds .text s.mem s (pageOf s fg bg) := by
  constructor
  case within => exact ⟨Nat.zero_le _, by change s.cursorY < 0+25; omega, by change 0 < 80; decide⟩
  case same =>
    refine ⟨hmode, hc, ?_, inside_refl _ _ s.mem, hx.symm, ?_⟩
    · intro r hr c hc'
      change _ = textInk (if 0+r < s.cursorY then decode (textScreen s.mem (0+r) c) else ⟨32, fg, bg, none⟩)
      rw [Nat.zero_add]
      by_cases hold : r < s.cursorY
      · rw [if_pos hold, textInk_decode (textScreen_lt s.mem r c)]
      · rw [if_neg hold, hblank r hr (Nat.le_of_not_lt hold) c hc', hc.both]
        rfl
    · exact (Nat.zero_add s.cursorY).symm

def write (s : Console) (text : List UInt8) : Console :=
  text.foldl (fun s c => s.putchar c.toNat) s

/-- The rows above that of the cursor, and that row. -/
def fullRows (text : List UInt8) : List (List ℕ) := (layout 80 (text.map UInt8.toNat)).1

def lastRow (text : List UInt8) : List ℕ := (layout 80 (text.map UInt8.toNat)).2

/-- By how many rows the screen moves up when a text starts in row `y`. -/
def movedUp (y : ℕ) (text : List UInt8) : ℕ := y+(fullRows text).length+1-25

theorem typed_colours (text : List UInt8) (t : Terminal) :
    ((text.map Event.char).foldl (Terminal.handle .text) t).fg = t.fg ∧
      ((text.map Event.char).foldl (Terminal.handle .text) t).bg = t.bg := by
  induction text generalizing t with
  | nil => exact ⟨rfl, rfl⟩
  | cons c text ih => exact ih (t.type .text c.toNat)

/-- Text at the cursor of a screen that is blank from there on: the screen moves up by as many rows
as do not fit, and shows the rows of the text below what it had above the cursor. -/
theorem screen_text (s : Console) {fg bg : ℕ}
    (hmode : s.bga.initialized = false ∧ s.graphicsMode = false) (hc : Coloured s fg bg)
    (hx : s.cursorX = 0) (hy : s.cursorY < 25)
    (hblank : ∀ r < 25, s.cursorY ≤ r → ∀ c < 80, textScreen s.mem r c = textCell 32 s.termColor)
    (text : List UInt8) (hback : 8 ∉ text) :
    (write s text).cursorX = (lastRow text).length ∧
      (write s text).cursorY+movedUp s.cursorY text = s.cursorY+(fullRows text).length ∧
      (∀ r < 25, ∀ c < 80, textScreen (write s text).mem r c =
        if r+movedUp s.cursorY text < s.cursorY then
          textScreen s.mem (r+movedUp s.cursorY text) c
        else textCell (charAt (fullRows text++[lastRow text])
          (r+movedUp s.cursorY text-s.cursorY) c) s.termColor) ∧
      Inside 0xB8000 4000 s.mem (write s text).mem := by
  have hholds := console_shows (pageOf_holds hmode hc hx hy hblank) (text.map Event.char)
  have hwrite : (text.map Event.char).foldl handle s = write s text := List.foldl_map
  rw [hwrite] at hholds
  obtain ⟨t, ht⟩ : ∃ t, t = (text.map Event.char).foldl (Terminal.handle .text) (pageOf s fg bg) :=
    ⟨_, rfl⟩
  have hlaid : Laid s.cursorY (textScreen s.mem) t (fullRows text, lastRow text) := by
    rw [ht]
    exact (pageOf_laid hy).run text hback
  rw [← ht] at hholds
  obtain ⟨⟨-, hcolours, hpicture, hinside, hcol, hrow⟩, -⟩ := hholds
  have hcolor : (t.fg ||| t.bg <<< 4)%256 = s.termColor := by
    obtain ⟨hfg, hbg⟩ := typed_colours text (pageOf s fg bg)
    rw [ht, hfg, hbg]
    exact hc.both.symm
  have hmoved : t.page.top = movedUp s.cursorY text := by
    rw [hlaid.top, hlaid.row]
    rfl
  refine ⟨hcol.symm.trans hlaid.col, ?_, ?_, hinside⟩
  · have hlast := hlaid.row
    change t.page.row = s.cursorY+(fullRows text).length at hlast
    omega
  · intro r hr c hc
    rw [hpicture r hr c hc, hlaid.cells _ c hc, hcolor, hmoved, Nat.add_comm r]

/-- An empty screen with the cursor in row 23, in white on black. -/
def blankConsole : Console where
  mem := fun k => if k%2 = 0 then 32 else 15
  bga := ⟨false, 0, 0, 0, 0⟩
  graphicsMode := false
  cursorX := 0
  cursorY := 23
  termFg := 15
  termBg := 0
  termColor := 15
  bgaFg := 0xFFFFFF
  bgaBg := 0
  crtc := fun _ => 0

theorem blankConsole_coloured : Coloured blankConsole 15 0 := ⟨rfl, rfl, rfl, rfl, rfl⟩

theorem blankConsole_blank : ∀ r < 25, blankConsole.cursorY ≤ r → ∀ c < 80,
    textScreen blankConsole.mem r c = textCell 32 blankConsole.termColor := by
  intro r hr hrow c hc
  have heven : blankConsole.mem (vgaBuffer (r*80+c)) = 32 := if_pos (by unfold vgaBuffer; omega)
  have hodd : blankConsole.mem (vgaBuffer (r*80+c)+1) = 15 := if_neg (by unfold vgaBuffer; omega)
  unfold textScreen read16
  rw [heven, hodd]
  rfl

/-- Three rows from row 23 on move the screen up by one. -/
theorem screen_text_blank : (write blankConsole [65, 10, 66, 67, 10, 68]).cursorY+1 = 25 :=
  (screen_text blankConsole ⟨rfl, rfl⟩ blankConsole_coloured rfl (by decide) blankConsole_blank
    [65, 10, 66, 67, 10, 68] (by decide)).2.1

end Screens

end Vlsmc.ConsoleText
