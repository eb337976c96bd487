import Mathlib.Data.List.Destutter
import Mathlib.Data.List.Forall2
import Vlsmc.CStrings
import Vlsmc.RingQueue

/-!
# The history of the shell

Sixteen rows of 128 characters are a ring of command lines, and a cursor counts back from the
newest. Whatever the order of the calls, they show the most recent commands, without those that
repeat the one before.
-/

set_option autoImplicit false

namespace Vlsmc.ShellHistory
open Vlsmc.ByteMemory Vlsmc.CStrings Vlsmc.RingQueue

/-- `SHELL_HISTORY_SIZE`. -/
def historySize : ℕ := 16

/-- `SHELL_MAX_CMD_LEN`. -/
def maxCmdLen : ℕ := 128

/-- The rows of `entries_` lie one after the other. -/
structure History where
  entries : Memory
  head : ℤ
  count : ℤ
  cursor : ℤ

/-- The characters of a row, and those of the rows behind it. -/
def rowAt (m : Memory) (row : ℕ) : Memory := fun i => m (maxCmdLen*row+i)

namespace History

def init (h : History) : History where
  entries := (List.range historySize).foldl (fun m i => write8 m (maxCmdLen*i) 0) h.entries
  head := 0
  count := 0
  cursor := -1

/-- `entries_[(head_ - 1 - cursor_ + SHELL_HISTORY_SIZE) % SHELL_HISTORY_SIZE]`. -/
def atCursor (h : History) : Memory :=
  rowAt h.entries ((h.head-1-h.cursor+historySize).tmod historySize).toNat

end History

/-- The loop of `add` that compares two lines; `none` while they go on. -/
def sameText (entry cmd : Memory) : ℕ → ℕ → Option Bool
  | 0, _ => none
  | fuel+1, i =>
    if entry i ≠ 0 ∨ cmd i ≠ 0 then
      if entry i ≠ cmd i then some false else sameText entry cmd fuel (i+1)
    else some true

/-- The loop of `add` that copies a line, with room for so many characters more. -/
def copyText (cmd : Memory) (row : ℕ) : ℕ → ℕ → Memory → ℕ × Memory
  | 0, i, m => (i, m)
  | n+1, i, m =>
    if cmd i ≠ 0 then copyText cmd row n (i+1) (write8 m (maxCmdLen*row+i) (cmd i)) else (i, m)

namespace History

/-- Whether a line is the newest one once more. -/
def repeats (fuel : ℕ) (cmd : Memory) (h : History) : Option Bool :=
  if 0 < h.count then
    let last := (h.head-1+historySize).tmod historySize
    sameText (rowAt h.entries last.toNat) cmd fuel 0
  else some false

/-- The line is written at the head. -/
def store (cmd : Memory) (h : History) : History :=
  let (i, m) := copyText cmd h.head.toNat (maxCmdLen-1) 0 h.entries
  { entries := write8 m (maxCmdLen*h.head.toNat+i) 0
    head := (h.head+1).tmod historySize
    count := if h.count < historySize then h.count+1 else h.count
    cursor := -1 }

def add (fuel : ℕ) (cmd : Option Memory) (h : History) : Option History :=
  match cmd with
  | none => some h
  | some cmd =>
    if cmd 0 = 0 then some h
    else (h.repeats fuel cmd).map fun same => if same then h else h.store cmd

/-- The line that is returned, if not the null pointer. -/
def navigateUp (h : History) : Option Memory × History :=
  if h.count = 0 then (none, h)
  else if h.cursor = -1 then
    let h := { h with cursor := 0 }
    (some h.atCursor, h)
  else if h.cursor < h.count-1 then
    let h := { h with cursor := h.cursor+1 }
    (some h.atCursor, h)
  else (some h.atCursor, h)

def navigateDown (h : History) : Option Memory × History :=
  if h.cursor ≤ 0 then (some fun _ => 0, { h with cursor := -1 })
  else
    let h := { h with cursor := h.cursor-1 }
    (some h.atCursor, h)

def resetCursor (h : History) : History := { h with cursor := -1 }

end History

/-- A line that the shell adds. -/
structure Command where
  chars : Memory
  text : List UInt8
  string : CString chars 0 text
  nonempty : text ≠ []
  short : text.length < maxCmdLen

inductive Call
  | add (c : Command)
  | up
  | down
  | reset

/-- One call, and the pointers that it returns. -/
def step (fuel : ℕ) (h : History) : Call → Option (List (Option Memory) × History)
  | .add c => (h.add fuel (some c.chars)).map fun h => ([], h)
  | .up => some ([h.navigateUp.1], h.navigateUp.2)
  | .down => some ([h.navigateDown.1], h.navigateDown.2)
  | .reset => some ([], h.resetCursor)

def run (fuel : ℕ) : History → List Call → Option (List (Option Memory) × History)
  | h, [] => some ([], h)
  | h, c::cs => do
    let (out, h) ← step fuel h c
    let (outs, h) ← run fuel h cs
    some (out++outs, h)

/-- The commands of the calls, in their order. -/
def added (calls : List Call) : List (List UInt8) :=
  calls.flatMap fun
    | .add c => [c.text]
    | _ => []

/-- The commands that are remembered, newest first: the last ones of all, without those that
repeat the one before. -/
def recent (added : List (List UInt8)) : List (List UInt8) :=
  (added.reverse.destutter (· ≠ ·)).take historySize

/-- What the history is for: the commands so far, and how far back the user has gone. -/
structure Recall where
  added : List (List UInt8)
  position : ℕ

namespace Recall

/-- The line so far back; before the newest there is the empty one. -/
def shown (r : Recall) (p : ℕ) : Option (List UInt8) :=
  if p = 0 then some [] else (recent r.added)[p-1]?

def step (r : Recall) : Call → List (Option (List UInt8)) × Recall
  | .add c => ([], ⟨r.added++[c.text],
      if r.added.getLast? = some c.text then r.position else 0⟩)
  | .up =>
    let p := min (r.position+1) (recent r.added).length
    ([if (recent r.added).length = 0 then none else r.shown p], { r with position := p })
  | .down => ([r.shown (r.position-1)], { r with position := r.position-1 })
  | .reset => ([], { r with position := 0 })

def run : Recall → List Call → List (Option (List UInt8)) × Recall
  | r, [] => ([], r)
  | r, c::cs => ((r.step c).1++(run (r.step c).2 cs).1, (run (r.step c).2 cs).2)

end Recall

/-- The row holds the line. -/
def RowHolds (m : Memory) (row : ℕ) (s : List UInt8) : Prop :=
  CString (rowAt m row) 0 s ∧ s.length < maxCmdLen

/-- The ring holds the commands that are remembered, and the cursor is where the user is. -/
structure Represents (h : History) (r : Recall) : Prop where
  rows : ∃ head : ℕ, h.head = head ∧ head < historySize ∧
    Newest (RowHolds h.entries) head historySize (recent r.added)
  count : h.count = (recent r.added).length
  cursor : h.cursor = r.position-1
  position : r.position ≤ (recent r.added).length

/-- The pointer that is returned is to the line, or null when there is none. -/
def Shows : Option Memory → Option (List UInt8) → Prop
  | none, none => True
  | some m, some s => CString m 0 s
  | _, _ => False

section Recent

theorem recent_head (added : List (List UInt8)) : (recent added).head? = added.getLast? := by
  have hfirst : ∀ (a : List UInt8) (l : List (List UInt8)),
      (l.destutter' (· ≠ ·) a).head? = some a := by
    intro a l
    induction l with
    | nil => rfl
    | cons b l ih =>
      rw [List.destutter'_cons]
      split_ifs
      · rfl
      · exact ih
  unfold recent
  rw [← List.head?_reverse]
  cases added.reverse with
  | nil => rfl
  | cons a l =>
    rw [List.head?_take, if_neg (by decide)]
    exact hfirst a l

theorem recent_add (added : List (List UInt8)) (s : List UInt8) :
    recent (added++[s]) =
      if added.getLast? = some s then recent added else (s::recent added).take historySize := by
  unfold recent
  rw [← List.head?_reverse, List.reverse_append, List.reverse_singleton, List.singleton_append]
  cases added.reverse with
  | nil => rfl
  | cons b l =>
    rw [List.destutter_cons_cons, List.head?_cons]
    by_cases hs : s = b
    · rw [if_neg (not_not.mpr hs), if_pos (by rw [hs]), hs]
      rfl
    · rw [if_pos hs, if_neg fun h => hs (Option.some.inj h).symm, List.destutter_cons']
      simp [historySize, List.take_take]

theorem recent_length (added : List (List UInt8)) : (recent added).length ≤ historySize := by
  unfold recent
  rw [List.length_take]
  exact Nat.min_le_left _ _

end Recent

section Lines

variable {m a b cmd : Memory} {s s' : List UInt8} {i row : ℕ}

theorem sameText_spec (fuel : ℕ) (ha : CString a i s) (hb : CString b i s')
    (hfuel : s.length < fuel) : sameText a b fuel i = some (decide (s = s')) := by
  induction fuel generalizing i s s' with
  | zero => omega
  | succ fuel ih =>
    rw [sameText]
    cases s with
    | nil =>
      rw [cstring_nil ha]
      cases s' with
      | nil => rw [cstring_nil hb, if_neg (by decide), decide_eq_true rfl]
      | cons c' s' =>
        obtain ⟨hc, hne, -⟩ := cstring_cons hb
        rw [hc, if_pos (Or.inr hne), if_pos (Ne.symm hne), decide_eq_false (by simp)]
    | cons c s =>
      obtain ⟨hc, hne, hs⟩ := cstring_cons ha
      rw [hc, if_pos (Or.inl hne)]
      cases s' with
      | nil => rw [cstring_nil hb, if_pos hne, decide_eq_false (by simp)]
      | cons c' s' =>
        obtain ⟨hc', -, hs'⟩ := cstring_cons hb
        rw [hc', ih hs hs' (by simpa using hfuel)]
        by_cases hcc : c = c'
        · rw [if_neg (not_not.mpr hcc), hcc]
          simp
        · rw [if_pos hcc, decide_eq_false fun h => hcc (List.cons.inj h).1]

variable (row) in
theorem copyText_spec (n : ℕ) (m : Memory) (h : CString cmd i s) (hn : s.length ≤ n) :
    (copyText cmd row n i m).1 = i+s.length ∧ ∀ k, (copyText cmd row n i m).2 k =
      if maxCmdLen*row+i ≤ k ∧ k < maxCmdLen*row+i+s.length then cmd (k-maxCmdLen*row)
      else m k := by
  induction n generalizing i s m with
  | zero =>
    have hlen : s.length = 0 := by omega
    rw [hlen]
    exact ⟨rfl, fun k => (if_neg (by omega)).symm⟩
  | succ n ih =>
    rw [copyText]
    cases s with
    | nil =>
      rw [if_neg (not_not.mpr (cstring_nil h))]
      exact ⟨rfl, fun k => (if_neg (by rw [List.length_nil]; omega)).symm⟩
    | cons c s =>
      obtain ⟨hc, hne, hs⟩ := cstring_cons h
      rw [if_pos (by rwa [hc]), List.length_cons]
      obtain ⟨hi, hm⟩ := ih (write8 m (maxCmdLen*row+i) (cmd i)) hs (by simpa using hn)
      refine ⟨by rw [hi]; omega, fun k => ?_⟩
      rw [hm]
      by_cases hk : k = maxCmdLen*row+i
      · rw [if_neg (by omega), if_pos (by omega), hk, write8_same,
          show maxCmdLen*row+i-maxCmdLen*row = i by omega]
      · rw [write8_ne m _ hk]
        by_cases hin : maxCmdLen*row+i ≤ k ∧ k < maxCmdLen*row+i+(s.length+1)
        · rw [if_pos (by omega), if_pos hin]
        · rw [if_neg (by omega), if_neg hin]

/-- The row that is written holds the line, and the others what they held. -/
theorem copied_rows (m : Memory) (row : ℕ) (h : CString cmd 0 s) (hs : s.length < maxCmdLen) :
    let (i, m') := copyText cmd row (maxCmdLen-1) 0 m
    RowHolds (write8 m' (maxCmdLen*row+i) 0) row s ∧
      ∀ other, other ≠ row → ∀ y, RowHolds m other y →
        RowHolds (write8 m' (maxCmdLen*row+i) 0) other y := by
  obtain ⟨hi, hm⟩ := copyText_spec row (maxCmdLen-1) m h (by omega)
  dsimp only
  rw [hi, Nat.zero_add]
  refine ⟨⟨cstring_congr h fun j _ hj => ?_, hs⟩, fun other hne y hy => ⟨cstring_congr hy.1
    fun j _ hj => ?_, hy.2⟩⟩
  · unfold rowAt
    rw [Nat.zero_add] at hj
    rcases Nat.lt_or_eq_of_le hj with hlt | rfl
    · rw [write8_ne _ _ (by omega), hm, if_pos (by omega)]
      exact congrArg cmd (by omega)
    · rw [write8_same, ← cstring_end h, Nat.zero_add]
  · have hshort := hy.2
    unfold maxCmdLen at hs hshort
    unfold rowAt maxCmdLen
    rw [write8_ne _ _ (by omega)]
    unfold maxCmdLen at hm
    rw [hm, if_neg (by omega)]

end Lines

section Steps

variable {h : History} {r : Recall}

/-- The row at the cursor is the one so far before the head. -/
theorem atCursor_row {head p : ℕ} (hhead : h.head = head) (hp : h.cursor = p)
    (hlt : p < historySize) :
    h.atCursor = rowAt h.entries ((head+(historySize-1-p))%historySize) := by
  have hsum : h.head-1-h.cursor+historySize = ((head+(historySize-1-p) : ℕ):ℤ) := by omega
  unfold History.atCursor
  rw [hsum, ← Int.ofNat_tmod, Int.toNat_natCast]

/-- The line that the cursor shows. -/
theorem shows_cursor (hr : Represents h r) {p : ℕ} (hp : p < (recent r.added).length)
    {c : ℤ} (hc : c = p) :
    Shows (some { h with cursor := c }.atCursor) (recent r.added)[p]? := by
  obtain ⟨head, hhead, -, hrows⟩ := hr.rows
  have hlen := recent_length r.added
  rw [List.getElem?_eq_getElem hp, atCursor_row (h := { h with cursor := c }) hhead hc (by omega)]
  exact (hrows p hp).1

theorem represents_init (h : History) : Represents h.init ⟨[], 0⟩ where
  rows := ⟨0, rfl, by decide, fun k hk => absurd hk (Nat.not_lt_zero k)⟩
  count := rfl
  cursor := rfl
  position := Nat.zero_le _

theorem Represents.at_position (hr : Represents h r) {p : ℕ} {c : ℤ} (hc : c = p-1)
    (hp : p ≤ (recent r.added).length) :
    Represents { h with cursor := c } { r with position := p } :=
  ⟨hr.rows, hr.count, hc, hp⟩

theorem repeats_spec (fuel : ℕ) (hr : Represents h r) (c : Command) (hfuel : maxCmdLen ≤ fuel) :
    h.repeats fuel c.chars = some (decide (r.added.getLast? = some c.text)) := by
  obtain ⟨head, hhead, -, hrows⟩ := hr.rows
  unfold History.repeats
  rw [hr.count, ← recent_head]
  cases hl : recent r.added with
  | nil => rfl
  | cons s l =>
    have hrow := hrows 0 (by rw [hl]; exact Nat.succ_pos _)
    have hsum : h.head-1+historySize = ((head+(historySize-1-0) : ℕ):ℤ) := by
      unfold historySize
      omega
    simp only [hl, List.getElem_cons_zero] at hrow
    rw [if_pos (by simp), hsum, ← Int.ofNat_tmod]
    dsimp only
    rw [Int.toNat_natCast, sameText_spec fuel hrow.1 c.string (by have := hrow.2; omega)]
    simp

theorem store_represents (hr : Represents h r) (c : Command)
    (hnew : r.added.getLast? ≠ some c.text) :
    Represents (h.store c.chars) ⟨r.added++[c.text], 0⟩ := by
  obtain ⟨head, hhead, hlt, hrows⟩ := hr.rows
  have hrecent : recent (r.added++[c.text]) = (c.text::recent r.added).take historySize := by
    rw [recent_add, if_neg hnew]
  have hlen := recent_length r.added
  have hcopied := copied_rows h.entries head c.string c.short
  unfold History.store
  rw [hhead, Int.toNat_natCast]
  generalize copyText c.chars head (maxCmdLen-1) 0 h.entries = copied at hcopied ⊢
  obtain ⟨i, m⟩ := copied
  constructor
  · refine ⟨(head+1)%historySize, Int.ofNat_tmod (head+1) historySize,
      Nat.mod_lt _ (by decide), ?_⟩
    rw [hrecent]
    exact newest_push hlt hcopied.1 (fun other _ hne y hy => hcopied.2 other hne y hy) hrows
  · rw [hrecent, List.length_take, List.length_cons]
    dsimp only
    rw [hr.count]
    split_ifs <;> omega
  · rfl
  · exact Nat.zero_le _

theorem add_represents (fuel : ℕ) (hr : Represents h r) (c : Command) (hfuel : maxCmdLen ≤ fuel) :
    ∃ h', h.add fuel (some c.chars) = some h' ∧ Represents h' (r.step (.add c)).2 := by
  have hfirst : c.chars 0 ≠ 0 := by
    obtain ⟨a, s, hs⟩ := List.exists_cons_of_ne_nil c.nonempty
    have hstring := c.string
    rw [hs] at hstring
    obtain ⟨h0, hne, -⟩ := cstring_cons hstring
    rwa [h0]
  unfold History.add
  dsimp only
  rw [if_neg hfirst, repeats_spec fuel hr c hfuel, Option.map_some]
  refine ⟨_, rfl, ?_⟩
  unfold Recall.step
  by_cases hlast : r.added.getLast? = some c.text
  · -- the ring stays, and so does the cursor
    have hsame : recent (r.added++[c.text]) = recent r.added := by rw [recent_add, if_pos hlast]
    rw [if_pos (decide_eq_true hlast)]
    simp only [if_pos hlast]
    refine ⟨?_, ?_, hr.cursor, ?_⟩
    · rw [hsame]
      exact hr.rows
    · rw [hsame]
      exact hr.count
    · rw [hsame]
      exact hr.position
  · rw [if_neg (by simpa using hlast)]
    simp only [if_neg hlast]
    exact store_represents hr c hlast

theorem up_represents (hr : Represents h r) :
    List.Forall₂ Shows [h.navigateUp.1] (r.step .up).1 ∧
      Represents h.navigateUp.2 (r.step .up).2 := by
  have hcount := hr.count
  have hcursor := hr.cursor
  have hpos := hr.position
  unfold History.navigateUp Recall.step
  dsimp only
  by_cases h0 : (recent r.added).length = 0
  · have hp : min (r.position+1) (recent r.added).length = r.position := by omega
    rw [if_pos (by omega), if_pos h0, hp]
    exact ⟨.cons trivial .nil, hr⟩
  rw [if_neg (by omega), if_neg h0]
  generalize hp : min (r.position+1) (recent r.added).length = p
  have hle : p ≤ (recent r.added).length := by omega
  have hshown : ∀ c : ℤ, c = (p-1 : ℕ) →
      List.Forall₂ Shows [some { h with cursor := c }.atCursor] [r.shown p] := by
    intro c hc
    refine .cons ?_ .nil
    unfold Recall.shown
    rw [if_neg (by omega)]
    exact shows_cursor hr (by omega) hc
  split_ifs
  · exact ⟨hshown 0 (by omega), hr.at_position (by omega) hle⟩
  · exact ⟨hshown _ (by omega), hr.at_position (by omega) hle⟩
  · have hsame : p = r.position := by omega
    refine ⟨hshown h.cursor (by omega), ?_⟩
    rw [hsame]
    exact hr

theorem down_represents (hr : Represents h r) :
    List.Forall₂ Shows [h.navigateDown.1] (r.step .down).1 ∧
      Represents h.navigateDown.2 (r.step .down).2 := by
  have hcursor := hr.cursor
  have hpos := hr.position
  unfold History.navigateDown Recall.step Recall.shown
  dsimp only
  split_ifs with hle h0 h0
  · refine ⟨.cons ?_ .nil, hr.at_position (by omega) (by omega)⟩
    exact ⟨rfl, List.not_mem_nil, by decide⟩
  · omega
  · omega
  · refine ⟨.cons ?_ .nil, hr.at_position (by omega) (by omega)⟩
    exact shows_cursor hr (by omega) (by omega)

theorem step_represents (fuel : ℕ) (hr : Represents h r) (hfuel : maxCmdLen ≤ fuel) (c : Call) :
    ∃ out h', step fuel h c = some (out, h') ∧ List.Forall₂ Shows out (r.step c).1 ∧
      Represents h' (r.step c).2 := by
  cases c with
  | add c =>
    obtain ⟨h', heq, hr'⟩ := add_represents fuel hr c hfuel
    exact ⟨[], h', by rw [step, heq]; rfl, .nil, hr'⟩
  | up => exact ⟨_, _, rfl, up_represents hr⟩
  | down => exact ⟨_, _, rfl, down_represents hr⟩
  | reset => exact ⟨[], _, rfl, .nil, hr.at_position rfl (Nat.zero_le _)⟩

theorem run_represents (fuel : ℕ) (hr : Represents h r) (hfuel : maxCmdLen ≤ fuel)
    (calls : List Call) :
    ∃ outs h', run fuel h calls = some (outs, h') ∧ List.Forall₂ Shows outs (r.run calls).1 ∧
      Represents h' (r.run calls).2 := by
  induction calls generalizing h r with
  | nil => exact ⟨[], h, rfl, .nil, hr⟩
  | cons c cs ih =>
    obtain ⟨out, h1, heq, hout, hr1⟩ := step_represents fuel hr hfuel c
    obtain ⟨outs, h2, heq', houts, hr2⟩ := ih hr1
    refine ⟨out++outs, h2, ?_, List.rel_append hout houts, hr2⟩
    rw [run, heq]
    dsimp only [Option.bind_eq_bind, Option.bind_some]
    rw [heq']
    rfl

theorem run_added (r : Recall) (calls : List Call) :
    (r.run calls).2.added = r.added++added calls := by
  induction calls generalizing r with
  | nil => exact (List.append_nil _).symm
  | cons c cs ih =>
    rw [Recall.run]
    dsimp only
    rw [ih]
    cases c with
    | add c => exact List.append_assoc _ _ _
    | up => rfl
    | down => rfl
    | reset => rfl

/-- From the reset cursor, so many steps up and then so many down. -/
theorem walk_represents (hr : Represents h r) (hreset : h.cursor = -1) (k j : ℕ) :
    Represents ((fun h => h.navigateDown.2)^[j] ((fun h => h.navigateUp.2)^[k] h))
      { r with position := min k (recent r.added).length-j } := by
  obtain ⟨cmds, position⟩ := r
  obtain rfl : position = 0 := by
    have hcursor : h.cursor = position-1 := hr.cursor
    omega
  have hups : Represents ((fun h => h.navigateUp.2)^[k] h)
      ⟨cmds, min k (recent cmds).length⟩ := by
    induction k with
    | zero =>
      rw [Nat.zero_min]
      exact hr
    | succ k ih =>
      rw [Function.iterate_succ_apply']
      have hnext := (up_represents ih).2
      have hpos : min (min k (recent cmds).length+1) (recent cmds).length =
          min (k+1) (recent cmds).length := by omega
      unfold Recall.step at hnext
      dsimp only at hnext
      rwa [hpos] at hnext
  induction j with
  | zero => exact hups
  | succ j ih =>
    rw [Function.iterate_succ_apply']
    exact (down_represents ih).2

end Steps

/-- After any calls the ring holds the recent commands. From the reset cursor each step up shows
the next older one until the oldest, and each step down the next newer one until the empty line. -/
theorem history_recent (h0 : History) (calls : List Call) (fuel : ℕ) (hfuel : maxCmdLen ≤ fuel) :
    ∃ outs h, run fuel h0.init calls = some (outs, h) ∧
      List.Forall₂ Shows outs (Recall.run ⟨[], 0⟩ calls).1 ∧
      Represents h ⟨added calls, (Recall.run ⟨[], 0⟩ calls).2.position⟩ ∧
      (h.cursor = -1 → ∀ k,
        Shows ((fun h => h.navigateUp.2)^[k] h).navigateUp.1
          (recent (added calls))[min (k+1) (recent (added calls)).length-1]? ∧
        ∀ j, Shows ((fun h => h.navigateDown.2)^[j] ((fun h => h.navigateUp.2)^[k] h)).navigateDown.1
          (if min k (recent (added calls)).length ≤ j+1 then some []
          else (recent (added calls))[min k (recent (added calls)).length-(j+1)-1]?)) := by
  obtain ⟨outs, h, hrun, houts, hr⟩ := run_represents fuel (represents_init h0) hfuel calls
  have hadded : (Recall.run ⟨[], 0⟩ calls).2 =
      ⟨added calls, (Recall.run ⟨[], 0⟩ calls).2.position⟩ := by
    have hrun := run_added ⟨[], 0⟩ calls
    rw [List.nil_append] at hrun
    rw [← hrun]
  rw [hadded] at hr
  refine ⟨outs, h, hrun, houts, hr, fun hreset k => ⟨?_, fun j => ?_⟩⟩
  · obtain ⟨hup, -⟩ := up_represents (walk_represents hr hreset k 0)
    cases hup with
    | cons hshow _ =>
      unfold Recall.shown at hshow
      dsimp only at hshow
      split_ifs at hshow with hempty hpos
      · rw [List.length_eq_zero_iff.mp hempty]
        exact hshow
      · omega
      · rwa [show min (min k (recent (added calls)).length-0+1) (recent (added calls)).length =
          min (k+1) (recent (added calls)).length by omega] at hshow
  · obtain ⟨hdown, -⟩ := down_represents (walk_represents hr hreset k j)
    cases hdown with
    | cons hshow _ =>
      unfold Recall.shown at hshow
      dsimp only at hshow
      rw [Nat.sub_sub] at hshow
      split_ifs at hshow ⊢ with hpos
      · exact hshow
      · omega
      · omega
      · exact hshow

def lineOf (c : UInt8) (h : c ≠ 0) : Command where
  chars k := if k = 0 then c else 0
  text := [c]
  string := ⟨holds_cons.mpr ⟨rfl, holds_single.mpr rfl⟩, by simpa using h.symm,
    show 0+1 < 4294967296 by decide⟩
  nonempty := List.cons_ne_nil _ _
  short := show 1 < 128 by decide

/-- Two commands, the second of them twice, three steps up and two down. -/
def twoLines : List Call :=
  [.add (lineOf 97 (by decide)), .add (lineOf 98 (by decide)), .add (lineOf 98 (by decide)),
    .up, .up, .up, .down, .down]

theorem history_recent_lines :
    ∃ outs h, run 128 (History.init ⟨fun _ => 0, 0, 0, 0⟩) twoLines = some (outs, h) ∧
      List.Forall₂ Shows outs [some [98], some [97], some [97], some [98], some []] ∧
      h.count = 2 ∧ Shows h.navigateUp.1 (some [98]) := by
  obtain ⟨outs, h, hrun, houts, hr, hwalk⟩ := history_recent ⟨fun _ => 0, 0, 0, 0⟩ twoLines 128
    (by decide)
  exact ⟨outs, h, hrun, houts, hr.count, (hwalk hr.cursor 0).1⟩

end Vlsmc.ShellHistory
