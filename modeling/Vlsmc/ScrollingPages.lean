import Mathlib.Order.Basic
import Vlsmc.CountedLoops

/-!
# Scrolling pages

A page without end and a cursor on it. A window shows the rows from `top` on; when the
cursor leaves it at the bottom, the window moves down and the rows it comes to are blank.
-/

set_option autoImplicit false

namespace Vlsmc.ScrollingPages
open Vlsmc.CountedLoops

variable {α σ γ : Type*}

structure Page (α : Type*) where
  cells : ℕ → ℕ → α
  row : ℕ
  col : ℕ
  top : ℕ

namespace Page

def put (p : Page α) (x : α) : Page α :=
  { p with cells := fun r c => if r = p.row ∧ c = p.col then x else p.cells r c }

/-- What the cursor stands on is changed. -/
def change (p : Page α) (f : α → α) : Page α := p.put (f (p.cells p.row p.col))

theorem change_change (p : Page α) (f g : α → α) : (p.change f).change g = p.change (g ∘ f) := by
  have hcells : ((p.change f).change g).cells = (p.change (g ∘ f)).cells := by
    funext r c
    change (if r = p.row ∧ c = p.col then g (if p.row = p.row ∧ p.col = p.col then _ else _)
      else if r = p.row ∧ c = p.col then _ else _) = if r = p.row ∧ c = p.col then _ else _
    by_cases hhere : r = p.row ∧ c = p.col
    · rw [if_pos hhere, if_pos hhere, if_pos ⟨rfl, rfl⟩]
      rfl
    · rw [if_neg hhere, if_neg hhere, if_neg hhere]
  exact congrArg (fun cells => ({ p with cells := cells } : Page α)) hcells

def newline (p : Page α) : Page α := { p with row := p.row+1, col := 0 }

def right (p : Page α) : Page α := { p with col := p.col+1 }

/-- One cell back, which becomes blank; not past the start of the window. -/
def back (w : ℕ) (blank : α) (p : Page α) : Page α :=
  if 0 < p.col then { p with col := p.col-1 }.put blank
  else if p.top < p.row then { p with row := p.row-1, col := w-1 }.put blank
  else p

def wrap (w : ℕ) (p : Page α) : Page α := if w ≤ p.col then p.newline else p

/-- The window moves when the cursor is below it. -/
def feed (h jump : ℕ) (blank : α) (p : Page α) : Page α :=
  if p.row < p.top+h then p
  else
    { p with
      top := p.top+jump
      cells := fun r c => if p.top+h ≤ r ∧ r < p.top+h+jump then blank else p.cells r c }

/-- The cursor is in the window, or just below it. -/
structure Within (h w : ℕ) (p : Page α) : Prop where
  low : p.top ≤ p.row
  high : p.row < p.top+h
  wide : p.col < w

end Page

section Windows

variable {screen : σ → ℕ → ℕ → γ} {ink : α → γ} {h w : ℕ} {p : Page α} {s s' : σ}

def Shows (screen : σ → ℕ → ℕ → γ) (ink : α → γ) (h w : ℕ) (s : σ) (p : Page α) : Prop :=
  ∀ r < h, ∀ c < w, screen s r c = ink (p.cells (p.top+r) c)

/-- One cell of the screen is drawn. -/
def Drawn (screen : σ → ℕ → ℕ → γ) (h w : ℕ) (s s' : σ) (r c : ℕ) (v : γ) : Prop :=
  ∀ i < h, ∀ j < w, screen s' i j = if i = r ∧ j = c then v else screen s i j

/-- The rows of the screen move up by `n`, and those below are filled. -/
def Moved (screen : σ → ℕ → ℕ → γ) (h w : ℕ) (s s' : σ) (n : ℕ) (v : γ) : Prop :=
  ∀ i < h, ∀ j < w, screen s' i j = if i+n < h then screen s (i+n) j else v

theorem Shows.drawn (hs : Shows screen ink h w s p) {r c : ℕ} {x : α} {v : γ}
    (hd : Drawn screen h w s s' r c v) (hr : p.row = p.top+r) (hc : p.col = c) (hv : v = ink x) :
    Shows screen ink h w s' (p.put x) := by
  intro i hi j hj
  rw [hd i hi j hj]
  change _ = ink (if p.top+i = p.row ∧ j = p.col then x else p.cells (p.top+i) j)
  by_cases hcell : i = r ∧ j = c
  · rw [if_pos hcell, if_pos (by omega), hv]
  · rw [if_neg hcell, if_neg (by omega)]
    exact hs i hi j hj

theorem Shows.unchanged (hs : Shows screen ink h w s p) {x : α} (hx : ink x = ink (p.cells p.row p.col)) :
    Shows screen ink h w s (p.put x) := by
  intro i hi j hj
  rw [hs i hi j hj]
  change _ = ink (if p.top+i = p.row ∧ j = p.col then x else p.cells (p.top+i) j)
  by_cases hcell : p.top+i = p.row ∧ j = p.col
  · rw [if_pos hcell, hx, hcell.1, hcell.2]
  · rw [if_neg hcell]

theorem Shows.moved (hs : Shows screen ink h w s p) {n : ℕ} {x : α} {v : γ}
    (hm : Moved screen h w s s' n v) (hbelow : p.top+h ≤ p.row) (hv : v = ink x) :
    Shows screen ink h w s' (p.feed h n x) := by
  have hfeed : p.feed h n x = { p with top := p.top+n, cells := _ } := if_neg (by omega)
  intro i hi j hj
  rw [hm i hi j hj, hfeed]
  change _ = ink (if p.top+h ≤ p.top+n+i ∧ p.top+n+i < p.top+h+n then x else p.cells (p.top+n+i) j)
  by_cases hup : i+n < h
  · rw [if_pos hup, if_neg (by omega), hs (i+n) hup j hj, show p.top+n+i = p.top+(i+n) by omega]
  · rw [if_neg hup, if_pos (by omega), hv]

end Windows

section Blocks

variable {pix : σ → ℕ → ℕ → γ} {k h w : ℕ} {s s' : σ}

/-- A picture as cells of `k` by `k` pixels. -/
def blocks (k : ℕ) (pix : σ → ℕ → ℕ → γ) (s : σ) (r c : ℕ) (i j : Fin k) : γ := pix s (k*r+i) (k*c+j)

/-- Pixel `(a, b)` is one that the loops over a cell come to before round `(i, j)`. -/
def Before (k y x i j a b : ℕ) : Prop :=
  k*y ≤ a ∧ k*x ≤ b ∧ b < k*x+k ∧ (a < k*y+i ∨ a = k*y+i ∧ b < k*x+j)

def DrawnTo (pix : σ → ℕ → ℕ → γ) (k h w : ℕ) (s : σ) (y x : ℕ) (v : ℕ → ℕ → γ) (i j : ℕ) (r : σ) : Prop :=
  ∀ a < k*h, ∀ b < k*w, (Before k y x i j a b → pix r a b = v (a-k*y) (b-k*x)) ∧
    (¬Before k y x i j a b → pix r a b = pix s a b)

theorem before_next {y x i j a b : ℕ} (hj : j < k) : Before k y x i (j+1) a b ↔
    Before k y x i j a b ∨ a = k*y+i ∧ b = k*x+j := by
  unfold Before
  omega

theorem before_row {y x i a b : ℕ} : Before k y x (i+1) 0 a b ↔ Before k y x i k a b := by
  unfold Before
  omega

theorem mem_cell {n m a : ℕ} (ha : a < k) : k*m ≤ k*n+a ∧ k*n+a < k*m+k ↔ n = m := by
  constructor
  · rintro ⟨hlow, hhigh⟩
    have hle : m < n+1 := by
      apply Nat.lt_of_mul_lt_mul_left (a := k)
      rw [Nat.mul_succ]
      omega
    have hge : n < m+1 := by
      apply Nat.lt_of_mul_lt_mul_left (a := k)
      rw [Nat.mul_succ]
      omega
    omega
  · rintro rfl
    omega

theorem cell_lt {n a : ℕ} (ha : a < k) (hn : n < h) : k*n+a < k*h := by
  have hle : k*(n+1) ≤ k*h := Nat.mul_le_mul_left k hn
  rw [Nat.mul_succ] at hle
  omega

/-- Two loops that draw the pixels of a cell draw the cell. -/
theorem drawn_blocks {put : σ → ℕ → ℕ → σ} {y x : ℕ} {v : ℕ → ℕ → γ} (hput : ∀ s, ∀ i < k, ∀ j < k,
      Drawn pix (k*h) (k*w) s (put s i j) (k*y+i) (k*x+j) (v i j)) (s : σ) :
    Drawn (blocks k pix) h w s ((List.range k).foldl (fun s i =>
      (List.range k).foldl (fun s j => put s i j) s) s) y x (fun i j => v i j) := by
  have hpixel : ∀ i < k, ∀ j < k, ∀ r, DrawnTo pix k h w s y x v i j r →
      DrawnTo pix k h w s y x v i (j+1) (put r i j) := by
    intro i hi j hj r hr a ha b hb
    obtain ⟨hin, hout⟩ := hr a ha b hb
    rw [hput r i hi j hj a ha b hb, before_next hj]
    by_cases hhere : a = k*y+i ∧ b = k*x+j
    · rw [if_pos hhere, hhere.1, hhere.2, Nat.add_sub_cancel_left, Nat.add_sub_cancel_left]
      exact ⟨fun _ => rfl, fun hno => absurd (Or.inr ⟨rfl, rfl⟩) hno⟩
    · rw [if_neg hhere]
      exact ⟨fun h => hin (h.resolve_right hhere), fun hno => hout fun h => hno (Or.inl h)⟩
  have hrow : ∀ i < k, ∀ r, DrawnTo pix k h w s y x v i 0 r →
      DrawnTo pix k h w s y x v (i+1) 0 ((List.range k).foldl (fun s j => put s i j) r) := by
    intro i hi r hr a ha b hb
    rw [before_row]
    exact foldl_range hr k (hpixel i hi) a ha b hb
  have hstart : DrawnTo pix k h w s y x v 0 0 s := by
    intro a ha b hb
    constructor
    · intro hbefore
      unfold Before at hbefore
      omega
    · exact fun _ => rfl
  have hall : DrawnTo pix k h w s y x v k 0 ((List.range k).foldl (fun s i =>
      (List.range k).foldl (fun s j => put s i j) s) s) :=
    foldl_range (P := fun i => DrawnTo pix k h w s y x v i 0) hstart k hrow
  intro r hr c hc
  funext i j
  obtain ⟨hin, hout⟩ := hall _ (cell_lt i.isLt hr) _ (cell_lt j.isLt hc)
  have hj := j.isLt
  by_cases hthis : r = y ∧ c = x
  · rw [if_pos hthis]
    obtain ⟨rfl, rfl⟩ := hthis
    have hi := i.isLt
    have hv := hin ⟨by omega, by omega, by omega, Or.inl (by omega)⟩
    rwa [Nat.add_sub_cancel_left, Nat.add_sub_cancel_left] at hv
  · rw [if_neg hthis]
    apply hout
    rintro ⟨ha, hb, hb', ha'⟩
    exact hthis ⟨(mem_cell i.isLt).mp ⟨ha, by omega⟩, (mem_cell hj).mp ⟨hb, hb'⟩⟩

/-- What every pixel keeps the loops keep. -/
theorem grid_keeps {put : σ → ℕ → ℕ → σ} {Q : σ → Prop} (hs : Q s)
    (hput : ∀ s, ∀ i < k, ∀ j < k, Q s → Q (put s i j)) :
    Q ((List.range k).foldl (fun s i => (List.range k).foldl (fun s j => put s i j) s) s) := by
  apply foldl_range (P := fun _ => Q) hs k
  intro i hi r hr
  exact foldl_range (P := fun _ => Q) hr k fun j hj t ht => hput t i hi j hj ht

theorem moved_blocks {n : ℕ} {v : γ} (hm : Moved pix (k*h) (k*w) s s' (k*n) v) :
    Moved (blocks k pix) h w s s' n (fun _ _ => v) := by
  intro r hr c hc
  funext i j
  have hrow := hm _ (cell_lt i.isLt hr) _ (cell_lt j.isLt hc)
  change pix s' (k*r+i) (k*c+j) = _
  rw [hrow]
  by_cases hup : r+n < h
  · have hin : k*r+i+k*n < k*h := by
      have hlt := cell_lt i.isLt hup
      rw [Nat.mul_add] at hlt
      omega
    rw [if_pos hin, if_pos hup]
    change _ = pix s (k*(r+n)+i) (k*c+j)
    rw [Nat.mul_add, Nat.add_right_comm]
  · have hout : ¬k*r+i+k*n < k*h := by
      have hle : k*h ≤ k*(r+n) := Nat.mul_le_mul_left k (Nat.le_of_not_lt hup)
      rw [Nat.mul_add] at hle
      omega
    rw [if_neg hout, if_neg hup]

end Blocks

section Cursor

variable {h w n : ℕ} {p : Page α} {x : α}

theorem Page.Within.back (hp : p.Within h w) : (p.back w x).Within h w := by
  obtain ⟨hlow, hhigh, hwide⟩ := hp
  unfold Page.back
  split_ifs with hcol hrow
  · exact ⟨hlow, hhigh, by change p.col-1 < w; omega⟩
  · exact ⟨by change p.top ≤ p.row-1; omega, by change p.row-1 < p.top+h; omega,
      by change w-1 < w; omega⟩
  · exact ⟨hlow, hhigh, hwide⟩

/-- Wherever a step of the cursor to the right or down has led, it is in the window at the end. -/
theorem Page.feed_within (hn : 0 < n ∧ n ≤ h) (hlow : p.top ≤ p.row) (hhigh : p.row ≤ p.top+h)
    (hwide : p.col < w) : (p.feed h n x).Within h w := by
  unfold Page.feed
  split_ifs with hin
  · exact ⟨hlow, hin, hwide⟩
  · exact ⟨by change p.top+n ≤ p.row; omega, by change p.row < p.top+n+h; omega, hwide⟩

end Cursor

end Vlsmc.ScrollingPages
